import AppRegistry.Application.Id
import AppRegistry.Application.Specification
import AppRegistry.Proofs.Json.Codecs

/-!
# Identifiers and specifications are read back

Every identifier and every record of a specification is read back as it was written, whatever its
maps hold and whether or not an entry stands under its own name. The whole of a specification nests
six brackets deep.
-/

namespace AppRegistry

open Json

/-! ## Identifiers -/

instance : LawfulCodec AccountId where
  decode?_arranged a := decode?_wrapped AccountId.mk a.name

instance : LawfulCodec ApplicationId where
  decode?_arranged a _ := bind_readFields? rfl (by decide) fun v hv => by
    rw [hv.required a.account rfl, hv.required a.name rfl]
    rfl

instance : LawfulCodec ProgramId where
  decode?_arranged p _ := bind_readFields? rfl (by decide) fun v hv => by
    rw [hv.required p.application rfl, hv.required p.name rfl]
    rfl

/-! ## Programs -/

instance : LawfulCodec Flowlet where
  decode?_arranged f _ := bind_readFields? rfl (by decide) fun v hv => by
    rw [hv.required f.name rfl, hv.required f.className rfl, hv.required f.instances rfl,
      hv.defaulted f.datasets ∅ rfl]
    rfl

instance : LawfulCodec Connection where
  decode?_arranged c _ := bind_readFields? rfl (by decide) fun v hv => by
    rw [hv.required c.source rfl, hv.required c.target rfl]
    rfl

instance : LawfulCodec Flow where
  decode?_arranged f _ := bind_readFields? rfl (by decide) fun v hv => by
    rw [hv.required f.name rfl, hv.required f.className rfl, hv.defaulted f.description "" rfl,
      hv.defaulted f.flowlets ∅ rfl, hv.defaulted f.connections [] rfl]
    rfl

instance : LawfulCodec Procedure where
  decode?_arranged p _ := bind_readFields? rfl (by decide) fun v hv => by
    rw [hv.required p.name rfl, hv.required p.className rfl, hv.defaulted p.description "" rfl,
      hv.required p.instances rfl, hv.defaulted p.datasets ∅ rfl]
    rfl

instance : LawfulCodec BatchJob where
  decode?_arranged b _ := bind_readFields? rfl (by decide) fun v hv => by
    rw [hv.required b.name rfl, hv.required b.className rfl, hv.defaulted b.description "" rfl,
      hv.optionalDefaulted encode_string_ne_null b.input rfl,
      hv.optionalDefaulted encode_string_ne_null b.output rfl]
    rfl

instance : LawfulCodec Workflow where
  decode?_arranged w _ := bind_readFields? rfl (by decide) fun v hv => by
    rw [hv.required w.name rfl, hv.required w.className rfl, hv.defaulted w.description "" rfl,
      hv.defaulted w.actions [] rfl]
    rfl

instance : LawfulCodec Runnable where
  decode?_arranged r _ := bind_readFields? rfl (by decide) fun v hv => by
    rw [hv.required r.name rfl, hv.required r.className rfl, hv.required r.instances rfl]
    rfl

instance : LawfulCodec Service where
  decode?_arranged s _ := bind_readFields? rfl (by decide) fun v hv => by
    rw [hv.required s.name rfl, hv.required s.className rfl, hv.defaulted s.description "" rfl,
      hv.defaulted s.runnables ∅ rfl]
    rfl

theorem ProgramKind.ofTag?_tag (kind : ProgramKind) : ofTag? kind.tag = some kind := by
  cases kind <;> decide

/-- The fields of a program are read back, whichever kind it has. -/
theorem ProgramDeclaration.ofBody?_body (p : ProgramDeclaration) (o : Arrangement) :
    ofBody? (p.body.arranged o) p.kind = some p := by
  cases p with
  | flow f => exact decode?_wrapped flow f o
  | procedure p => exact decode?_wrapped procedure p o
  | batchJob b => exact decode?_wrapped batchJob b o
  | workflow w => exact decode?_wrapped workflow w o
  | service s => exact decode?_wrapped service s o

instance : LawfulCodec ProgramDeclaration where
  decode?_arranged p o := by
    have hfields : arrangedFields [(p.kind.tag, p.body)] o = [(p.kind.tag, p.body.arranged o)] := by
      cases o <;> rfl
    show decode? ((object [(p.kind.tag, p.body)]).arranged o) = some p
    rw [arranged_object, hfields]
    show (ProgramKind.ofTag? p.kind.tag >>= ProgramDeclaration.ofBody? (p.body.arranged o)) = some p
    rw [ProgramKind.ofTag?_tag]
    exact p.ofBody?_body o

/-! ## Streams, datasets and specifications -/

instance : LawfulCodec StreamDeclaration where
  decode?_arranged s _ := bind_readFields? rfl (by decide) fun v hv => by
    rw [hv.required s.name rfl]
    rfl

instance : LawfulCodec DatasetDeclaration where
  decode?_arranged d _ := bind_readFields? rfl (by decide) fun v hv => by
    rw [hv.required d.name rfl, hv.required d.typeName rfl, hv.defaulted d.properties ∅ rfl]
    rfl

instance : LawfulCodec Specification where
  decode?_arranged s _ := bind_readFields? rfl (by decide) fun v hv => by
    rw [hv.defaulted s.name "" rfl, hv.defaulted s.description "" rfl,
      hv.defaulted s.streams ∅ rfl, hv.defaulted s.datasets ∅ rfl, hv.defaulted s.flows ∅ rfl,
      hv.defaulted s.procedures ∅ rfl, hv.defaulted s.batchJobs ∅ rfl,
      hv.defaulted s.workflows ∅ rfl, hv.defaulted s.services ∅ rfl]
    rfl

/-! ## Numbers and nesting -/

theorem tame_encode_applicationId (a : ApplicationId) : (encode a).Tame 1 :=
  (tame_string _ _).field <| (tame_string _ _).field <| tame_object_nil _

theorem tame_encode_programId (p : ProgramId) : (encode p).Tame 2 :=
  (tame_encode_applicationId _).field <| (tame_string _ _).field <| tame_object_nil _

theorem tame_encode_flowlet (f : Flowlet) : (encode f).Tame 2 :=
  (tame_string _ _).field <| (tame_string _ _).field <| (tame_encode_uint32 _ _).field <|
    (tame_encode_set _).field <| tame_object_nil _

theorem tame_encode_connection (c : Connection) : (encode c).Tame 1 :=
  (tame_string _ _).field <| (tame_string _ _).field <| tame_object_nil _

theorem tame_encode_flow (f : Flow) : (encode f).Tame 4 :=
  (tame_string _ _).field <| (tame_string _ _).field <| (tame_string _ _).field <|
    (tame_encode_map tame_encode_flowlet _).field <|
    ((tame_encode_list tame_encode_connection _).mono (by decide)).field <| tame_object_nil _

theorem tame_encode_procedure (p : Procedure) : (encode p).Tame 2 :=
  (tame_string _ _).field <| (tame_string _ _).field <| (tame_string _ _).field <|
    (tame_encode_uint32 _ _).field <| (tame_encode_set _).field <| tame_object_nil _

theorem tame_encode_batchJob (b : BatchJob) : (encode b).Tame 1 :=
  (tame_string _ _).field <| (tame_string _ _).field <| (tame_string _ _).field <|
    (tame_encode_option (tame_string · _) _).field <|
    (tame_encode_option (tame_string · _) _).field <| tame_object_nil _

theorem tame_encode_workflow (w : Workflow) : (encode w).Tame 2 :=
  (tame_string _ _).field <| (tame_string _ _).field <| (tame_string _ _).field <|
    (tame_encode_list (tame_string · _) _).field <| tame_object_nil _

theorem tame_encode_runnable (r : Runnable) : (encode r).Tame 1 :=
  (tame_string _ _).field <| (tame_string _ _).field <| (tame_encode_uint32 _ _).field <|
    tame_object_nil _

theorem tame_encode_service (s : Service) : (encode s).Tame 3 :=
  (tame_string _ _).field <| (tame_string _ _).field <| (tame_string _ _).field <|
    (tame_encode_map tame_encode_runnable _).field <| tame_object_nil _

theorem tame_encode_program (p : ProgramDeclaration) : (encode p).Tame 5 := by
  have hbody : p.body.Tame 4 := by
    cases p with
    | flow f => exact tame_encode_flow f
    | procedure p => exact (tame_encode_procedure p).mono (by decide)
    | batchJob b => exact (tame_encode_batchJob b).mono (by decide)
    | workflow w => exact (tame_encode_workflow w).mono (by decide)
    | service s => exact (tame_encode_service s).mono (by decide)
  exact hbody.field (tame_object_nil 4)

theorem tame_encode_stream (s : StreamDeclaration) : (encode s).Tame 1 :=
  (tame_string _ _).field <| tame_object_nil _

theorem tame_encode_dataset (d : DatasetDeclaration) : (encode d).Tame 2 :=
  (tame_string _ _).field <| (tame_string _ _).field <|
    (tame_encode_map (tame_string · _) _).field <| tame_object_nil _

theorem tame_encode_specification (s : Specification) : (encode s).Tame 6 :=
  (tame_string _ _).field <| (tame_string _ _).field <|
    ((tame_encode_map tame_encode_stream _).mono (by decide)).field <|
    ((tame_encode_map tame_encode_dataset _).mono (by decide)).field <|
    (tame_encode_map tame_encode_flow _).field <|
    ((tame_encode_map tame_encode_procedure _).mono (by decide)).field <|
    ((tame_encode_map tame_encode_batchJob _).mono (by decide)).field <|
    ((tame_encode_map tame_encode_workflow _).mono (by decide)).field <|
    ((tame_encode_map tame_encode_service _).mono (by decide)).field <| tame_object_nil _

end AppRegistry
