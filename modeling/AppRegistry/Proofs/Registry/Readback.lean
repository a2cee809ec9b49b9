import AppRegistry.Proofs.Archive.Manifests
import AppRegistry.Proofs.Registry.Requests

/-!
# What is written is read back

The values that the registry keeps go through several forms: the JSON value that a transaction
stages, the bytes of a record file, where the fields of each object are sorted, and the text of a
manifest, where they are in the order of their declaration. Readers are lenient. They know defaults
for missing fields, take null for an absent value and accept lists for records.

**Theorem (`records_round_trip`).** Every kind of value that the registry keeps is read back from
each of these forms as it was written.

The reader of a type has to undo its writer in both orders of the fields (`LawfulCodec`), and what is
written must fit a record file (`Json.Tame`). Everything else is the same for all types
(`roundTrips`).
-/

namespace AppRegistry

variable {ε α : Type} [Codec α] {k : Key} {m : OrderedMap Key Json} {a : α}

/-! ## Values in transactions -/

theorem Transaction.runOn_writeAs (k : Key) (a : α) (m : OrderedMap Key Json) :
    (writeAs k a : Transaction ε Unit).runOn m = (.done (), m.insert k (stored a)) := rfl

theorem Transaction.runOn_readAs [LawfulCodec α] (h : m.get? k = some (stored a)) :
    (readAs α k : Transaction ε _).runOn m = (.done (.ok (some a)), m) := by
  unfold readAs readAt
  rw [runOn_bind, runOn, runOn, h]
  simp only [decodeRecord, decode?_stored]
  rfl

/-- Reading one record goes to its key only. -/
theorem Transaction.staysIn_readAs {P : Key → Prop} {V : Json → Prop} (hk : P k) :
    (readAs α k : Transaction ε _).StaysIn P V m := by
  refine ⟨hk, ?_⟩
  cases m.get? k with
  | none => trivial
  | some j => trivial

theorem Overlay.run_writeAs (o : Overlay) (k : Key) (a : α) :
    o.run (Transaction.writeAs k a : Transaction ε Unit) =
      (.done (), o.stage k (some (stored a))) := rfl

theorem Overlay.run_readAs [LawfulCodec α] {o : Overlay} (h : o.read k = .ok (some (stored a))) :
    o.run (Transaction.readAs α k : Transaction ε _) = (.done (.ok (some a)), o) := by
  unfold Transaction.readAs Transaction.readAt
  rw [run_bind, run, run, h]
  simp only [Transaction.decodeRecord, decode?_stored]
  rfl

theorem Overlay.read_stage (o : Overlay) (k : Key) (v : Option Json) :
    (o.stage k v).read k = .ok v := by
  rw [Overlay.read, Overlay.stage, OrderedMap.get?_insert, if_pos rfl]

/-! ## Types that are read back -/

/-- The values of a type are read back from each form in which they are written. -/
structure RoundTrips (α : Type) [Codec α] : Prop where
  /-- The form is a value, with its fields as they are declared or sorted. -/
  value : ∀ (a : α) (o : Json.Arrangement), decode? ((encode a).arranged o) = some a
  /-- The form is a text with one part to a line. -/
  text : ∀ a : α, (Json.readRecordBytes? (encode a).pretty.toUTF8 >>= decode?) = some a
  /-- The form is a staged record, which the same transaction reads, whatever it runs over. -/
  view : ∀ (ε : Type) (o : Overlay) (k : Key) (a : α),
    (o.run (do Transaction.writeAs k a; Transaction.readAs α k : Transaction ε _)).1 =
      .done (.ok (some a))
  /-- The form is a record of a store, in memory or on disk, which a later transaction reads. It is
  committed wherever there is room for its key. -/
  store : ∀ (ε : Type) (s : Store) (m : OrderedMap Key Json) (t : FileTree) (k : Key) (a : α),
    s.Holds m t → s.HasRoom k → ∃ s' t',
      (s.transact (Transaction.writeAs k a : Transaction ε Unit)).run t =
        ((.committed (), s'), t') ∧ s'.Holds (m.insert k (stored a)) t' ∧
      ∃ s'' t'', (s'.transact (Transaction.readAs α k : Transaction ε _)).run t' =
        ((.committed (.ok (some a)), s''), t'')

/-- **A type is read back** if its reader undoes its writer and what it writes fits a record file. -/
theorem roundTrips [LawfulCodec α] {n : Nat} (htame : ∀ a : α, (encode a).Tame n)
    (hn : n ≤ Json.depthLimit) : RoundTrips α where
  value := LawfulCodec.decode?_arranged
  text a := by
    rw [Json.readRecordBytes?_pretty (htame a).1]
    exact decode?_encode a
  view ε o k a := by
    rw [Overlay.run_bind, Overlay.run_writeAs]
    simp only [Overlay.run_readAs (o.read_stage k (some (stored a)))]
  store ε s m t k a hholds hroom := by
    have hstorable : Disk.Storable (stored a) := storable_stored (htame a) hn
    obtain ⟨s', t', hwrite, hafter, hroot⟩ := hholds.transact_of_staysIn
      (Transaction.runOn_writeAs (ε := ε) k a m) ⟨hroom, hstorable, trivial⟩
    have hroom' : s'.HasRoom k := fun root hr => hroom root (hroot.symm.trans hr)
    have hget : (m.insert k (stored a)).get? k = some (stored a) := by
      rw [OrderedMap.get?_insert, if_pos rfl]
    obtain ⟨s'', t'', hread, -⟩ := hafter.transact_of_staysIn
      (Transaction.runOn_readAs (ε := ε) hget) (Transaction.staysIn_readAs hroom')
    exact ⟨s', t', hwrite, hafter, s'', t'', hread⟩

/-- **The values that the registry keeps are read back as they were written**: specifications,
programs of every kind, runs, the identifiers of programs, datasets, streams and run arguments. The
text with one part to a line is that of a manifest. -/
theorem records_round_trip :
    RoundTrips Specification ∧ RoundTrips ProgramDeclaration ∧ RoundTrips RunRecord ∧
    RoundTrips ProgramId ∧ RoundTrips DatasetDeclaration ∧ RoundTrips StreamDeclaration ∧
    RoundTrips RunArguments ∧
    ∀ s : Specification, Manifest.ofBytes? (Manifest.bytes s) = some s :=
  ⟨roundTrips tame_encode_specification (by decide), roundTrips tame_encode_program (by decide),
    roundTrips tame_encode_run (by decide), roundTrips tame_encode_programId (by decide),
    roundTrips tame_encode_dataset (by decide), roundTrips tame_encode_stream (by decide),
    roundTrips (fun args : RunArguments => Json.tame_encode_map (Json.tame_string · 0) args)
      (by decide),
    Manifest.ofBytes?_bytes⟩

/-- A job that writes a dataset and reads none. -/
def nightly : ProgramDeclaration := .batchJob ⟨"nightly", "Nightly", "", none, some "totals"⟩

theorem records_round_trip_nightly :
    (Store.disk ⟨["data"], false⟩).Holds ∅ Disk.storeTree ∧
    (Store.disk ⟨["data"], false⟩).HasRoom Disk.childKey ∧
    ∃ s' t', ((Store.disk ⟨["data"], false⟩).transact
        (Transaction.writeAs Disk.childKey nightly : Transaction Unit Unit)).run Disk.storeTree =
          ((.committed (), s'), t') ∧
      ∃ s'' t'', (s'.transact
        (Transaction.readAs ProgramDeclaration Disk.childKey : Transaction Unit _)).run t' =
          ((.committed (.ok (some nightly)), s''), t'') := by
  have hholds : (Store.disk ⟨["data"], false⟩).Holds ∅ Disk.storeTree :=
    Store.holds_empty_disk rfl (fun _ => Disk.get?_below_storeTree) (by decide)
  have hroom : (Store.disk ⟨["data"], false⟩).HasRoom Disk.childKey := by
    intro root hroot
    obtain rfl := Option.some.inj hroot
    decide
  obtain ⟨-, hprograms, -⟩ := records_round_trip
  obtain ⟨s', t', hwrite, -, hread⟩ := hprograms.store Unit _ _ _ _ nightly hholds hroom
  exact ⟨hholds, hroom, s', t', hwrite, hread⟩

end AppRegistry
