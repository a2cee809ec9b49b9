import AppRegistry.Proofs.Application.Codecs
import AppRegistry.Proofs.Disk.Equivalence
import AppRegistry.Proofs.Instant
import AppRegistry.Registry.Record

/-!
# Stored values

What the registry stores is read back (`LawfulCodec`), and a record file can hold it
(`Storable`).
-/

namespace AppRegistry

open Json

instance : LawfulCodec ArchiveLocation where
  decode?_arranged l := decode?_wrapped ArchiveLocation.mk l.uri

instance : LawfulCodec RunId where
  decode?_arranged r := decode?_wrapped RunId.mk r.name

instance : LawfulCodec ApplicationRecord where
  decode?_arranged r _ := bind_readFields? rfl (by decide) fun v hv => by
    rw [hv.required r.specification rfl, hv.required r.location rfl, hv.required r.lastUpdated rfl]
    rfl

instance : LawfulCodec RunRecord where
  decode?_arranged r _ := bind_readFields? rfl (by decide) fun v hv => by
    rw [hv.required r.run rfl, hv.required r.start rfl, hv.optional encode_int64_ne_null r.stop rfl,
      hv.optional encode_string_ne_null r.status rfl]
    rfl

theorem tame_encode_application (r : ApplicationRecord) : (encode r).Tame 7 :=
  (tame_encode_specification _).field <| (tame_string _ _).field <| (tame_string _ _).field <|
    tame_object_nil _

theorem tame_encode_run (r : RunRecord) : (encode r).Tame 1 :=
  (tame_string _ _).field <| (tame_encode_int64 _ _).field <|
    (tame_encode_option (tame_encode_int64 · _) _).field <|
    (tame_encode_option (tame_string · _) _).field <| tame_object_nil _

/-! ## The stored form -/

section Stored
variable {α : Type} [Codec α]

/-- The form in which a value is stored. -/
def stored (a : α) : Json := (encode a).sorted

theorem decode?_stored [LawfulCodec α] (a : α) : decode? (stored a) = some a := decode?_sorted a

theorem stored_inj [LawfulCodec α] {a b : α} (h : stored a = stored b) : a = b :=
  Option.some.inj ((decode?_stored a).symm.trans (h ▸ decode?_stored b))

theorem storable_stored {a : α} {n : Nat} (h : (encode a).Tame n) (hn : n ≤ depthLimit) :
    Disk.Storable (stored a) :=
  ⟨sorted_sorted _, h.sorted.1, Nat.le_trans h.sorted.2 hn⟩

end Stored

end AppRegistry
