import AppRegistry.Proofs.Registry.InMemory
import AppRegistry.Proofs.Registry.Sequences
import Mathlib.Data.List.Forall2

/-!
# Accounts do not interfere

What an account is answered, and what is kept for it, depends on the operations addressed to it
alone. With the loader that touches no archive and with records in memory, the operations addressed
to other accounts can be left out (`Registry.own_account_alone`). Only the times of last updates may
differ.
-/

namespace AppRegistry

variable {σ τ : Type} {m m' : OrderedMap Key Json} {t : FileTree}

/-! ## Requests over a map -/

/-- What a request gives over a map when the loader takes programs from stored specifications. -/
def Request.settle (m : OrderedMap Key Json) : Request → Answer × OrderedMap Key Json
  | .known a => (a, m)
  | .ask f t =>
    match t.runOn m with
    | (.done a, m') => (.reply (f a), m')
    | (.rejected e, _) => (.error e, m)
    | (.panicked, _) => (.panicked, m)
  | .publish _ t =>
    match t.runOn m with
    | (.done (k, r), m') => (.reply .done, m'.insert k (stored r))
    | (.rejected e, _) => (.error e, m)
    | (.panicked, _) => (.panicked, m)
  | .load p kind =>
    match ((Application.required p.application).runOn m).1 with
    | .done r =>
      if (r.specification.program? kind p.name).isNone then (.error (.programNotFound p kind), m)
      else (.reply (.program ⟨p, kind, r.location, r.specification⟩), m)
    | .rejected e => (.error e, m)
    | .panicked => (.panicked, m)

section Settle
variable {F : Footprint} {rq rq' : Request}

/-- **Requests that come down to transactions that run alike are settled alike.** -/
theorem Request.Alike.settle (h : rq.Alike F rq') (hm : AgreeOn F.reads m m') :
    Answer.Agrees (rq.settle m).1 (rq'.settle m').1 ∧
      AgreeOn F.reads (rq.settle m).2 (rq'.settle m').2 := by
  cases h with
  | known a => exact ⟨.same a, hm⟩
  | @ask _ _ R f f' t t' htx hf =>
    obtain ⟨hend, hafter⟩ := htx.runOn hm
    simp only [Request.settle]
    generalize t.runOn m = x at hend hafter
    generalize t'.runOn m' = y at hend hafter
    obtain ⟨out, copy⟩ := x
    obtain ⟨out', copy'⟩ := y
    cases hend with
    | done hab => exact ⟨hf _ _ hab, hafter⟩
    | rejected e => exact ⟨.same _, hm⟩
  | @publish target t t' htx =>
    obtain ⟨hend, hafter⟩ := htx.runOn hm
    simp only [Request.settle]
    generalize t.runOn m = x at hend hafter
    generalize t'.runOn m' = y at hend hafter
    obtain ⟨out, copy⟩ := x
    obtain ⟨out', copy'⟩ := y
    cases hend with
    | @done a b hab =>
      obtain ⟨k, r⟩ := a
      obtain ⟨k', r'⟩ := b
      obtain ⟨rfl, -, happ, hr⟩ := hab
      refine ⟨.same _, hafter.insert ⟨storable_application r, storable_application r', .inr ?_⟩⟩
      exact ⟨happ, r, r', rfl, rfl, hr⟩
    | rejected e => exact ⟨.same _, hm⟩
  | @load p kind htx =>
    have hend := (htx.runOn hm).1
    simp only [Request.settle]
    generalize ((Application.required p.application).runOn m).1 = x at hend
    generalize ((Application.required p.application).runOn m').1 = y at hend
    cases hend with
    | @done r r' hr =>
      simp only [hr.1, hr.2]
      split
      · exact ⟨.same _, hm⟩
      · exact ⟨.same _, hm⟩
    | rejected e => exact ⟨.same _, hm⟩

/-- A request is settled as it may be. -/
theorem Request.Alike.gives_settle (h : rq.Alike F rq) (hm : AllStorable m) :
    rq.Gives m (rq.settle m).1 (rq.settle m).2 := by
  have hself := hm.agreeOn F.reads
  cases rq with
  | known a => exact .known a
  | ask f t =>
    cases h with
    | ask htx _ =>
      have hend := (htx.runOn hself).1
      simp only [Request.settle]
      generalize hruns : t.runOn m = x at hend
      obtain ⟨_ | _ | _, copy⟩ := x
      · exact .replied hruns
      · exact .rejected hruns
      · cases hend
  | publish target t =>
    cases h with
    | publish htx =>
      have hend := (htx.runOn hself).1
      simp only [Request.settle]
      generalize hruns : t.runOn m = x at hend
      obtain ⟨_ | _ | _, copy⟩ := x
      · exact .published hruns (.inl rfl)
      · exact .unpublished _
      · cases hend
  | load p kind =>
    have hsame : ((Request.load p kind).settle m).2 = m := by
      simp only [Request.settle]
      split
      · split <;> rfl
      · rfl
      · rfl
    rw [hsame]
    exact .loaded _

end Settle

/-! ## Records in memory -/

namespace Registry

theorem serve_ofMap {F : Footprint} {rq : Request} (hrq : rq.Alike F rq) (hm : AllStorable m)
    (x : σ) : ((onStore (.ofMap m) x).serve (.ofSpecification σ) rq).run t =
      (((rq.settle m).1, onStore (.ofMap (rq.settle m).2) x), t) := by
  have hself := hm.agreeOn F.reads
  cases rq with
  | known a => rfl
  | ask f tx =>
    cases hrq with
    | ask htx _ =>
      have hend := (htx.runOn hself).1
      rw [onStore, ask_inMemory, Request.settle]
      generalize tx.runOn m = runs at hend
      obtain ⟨_ | _ | _, copy⟩ := runs
      · rfl
      · rfl
      · cases hend
  | publish target tx =>
    cases hrq with
    | publish htx =>
      have hend := (htx.runOn hself).1
      rw [onStore, publish_inMemory, Request.settle]
      generalize tx.runOn m = runs at hend
      obtain ⟨_ | _ | _, copy⟩ := runs
      · rfl
      · rfl
      · cases hend
  | load p kind =>
    cases hrq with
    | load htx =>
      have hend := (htx.runOn hself).1
      rw [onStore, load_inMemory, Request.settle]
      generalize ((Application.required p.application).runOn m).1 = out at hend
      cases out with
      | done r =>
        simp only
        split <;> rfl
      | rejected e => rfl
      | panicked => cases hend

/-- What operations give over a map, one after another. -/
def settleAll (m : OrderedMap Key Json) : List TimedOperation → List Answer × OrderedMap Key Json
  | [] => ([], m)
  | (now, op) :: rest =>
    let (a, m) := (op.request now).settle m
    let (answers, m) := settleAll m rest
    (a :: answers, m)

theorem performAll_ofMap (hm : AllStorable m) (x : σ) (ops : List TimedOperation) :
    (performAll (.ofSpecification σ) (onStore (.ofMap m) x) ops).run t =
      (((settleAll m ops).1, onStore (.ofMap (settleAll m ops).2) x), t) := by
  induction ops generalizing m with
  | nil => rfl
  | cons e ops ih =>
    obtain ⟨now, op⟩ := e
    have halike := op.alike now now
    simp only [performAll, perform_eq_serve, Script.run_bind, Script.run_pure, settleAll,
      serve_ofMap halike hm, ih ((halike.gives_settle hm).allStorable halike hm)]

theorem allStorable_empty : AllStorable ∅ := fun k v h => by simp at h

/-- Operations on an empty store in memory lead to the map that they are settled to. -/
theorem reached_settleAll (x : σ) (t : FileTree) (ops : List TimedOperation)
    (hpanic : .panicked ∉ (settleAll ∅ ops).1) : Reached (.ofSpecification σ)
      (history ops (settleAll ∅ ops).1) (onStore (.ofMap (settleAll ∅ ops).2) x) t :=
  ⟨.memory .empty, x, t, ops, _, Store.holds_empty_memory _, nofun,
    performAll_ofMap allStorable_empty x ops, hpanic, rfl⟩

/-! ## Two runs -/

/-- The answers to the operations that are addressed to an account. -/
def answersTo (A : AccountId) (past : List (Operation × Answer)) : List Answer :=
  past.filterMap fun e => if e.1.account = A then some e.2 else none

/-- An operation addressed to another account changes nothing of an account. -/
theorem settle_of_account_ne {A : AccountId} {now : Instant} {op : Operation} (hop : op.account ≠ A)
    (hm : AllStorable m) {k : Key} (hk : A.Owns k) :
    ((op.request now).settle m).2.get? k = m.get? k :=
  ((op.alike now now).gives_settle hm).get?_eq (op.alike now now) hm fun hwrites =>
    hop (hwrites.reads.owns.unique hk)

/-- An operation answers alike on maps that agree on its account, and they agree after it. -/
theorem settle_of_account_eq {A : AccountId} (now now' : Instant) {op : Operation}
    (hop : op.account = A) (hm : AllStorable m) (hm' : AllStorable m') (h : AgreeOn A.Owns m m') :
    Answer.Agrees ((op.request now).settle m).1 ((op.request now').settle m').1 ∧
      AgreeOn A.Owns ((op.request now).settle m).2 ((op.request now').settle m').2 := by
  have hreads : AgreeOn op.footprint.reads m m' := fun k hk => h k (hop ▸ hk.owns)
  obtain ⟨hanswer, hafter⟩ := (op.alike now now').settle hreads
  refine ⟨hanswer, fun k hk => ?_⟩
  -- What the operation reads it treats alike on both maps; the rest of the account it leaves alone.
  by_cases hr : op.footprint.reads k
  · exact hafter k hr
  · have hwrites : ¬ op.footprint.writes k := fun hw => hr (op.footprint.reads_of_writes k hw)
    rw [((op.alike now now).gives_settle hm).get?_eq (op.alike now now) hm hwrites,
      ((op.alike now' now').gives_settle hm').get?_eq (op.alike now' now') hm' hwrites]
    exact h k hk

theorem settleAll_own {A : AccountId} {ops own : List TimedOperation}
    (hown : own.map (·.2) = (ops.map (·.2)).filter (·.account = A)) (hm : AllStorable m)
    (hm' : AllStorable m') (h : AgreeOn A.Owns m m') :
    List.Forall₂ Answer.Agrees (answersTo A (history ops (settleAll m ops).1))
        (settleAll m' own).1 ∧
      AgreeOn A.Owns (settleAll m ops).2 (settleAll m' own).2 := by
  induction ops generalizing m m' own with
  | nil =>
    obtain rfl : own = [] := List.map_eq_nil_iff.mp hown
    exact ⟨.nil, h⟩
  | cons e ops ih =>
    obtain ⟨now, op⟩ := e
    have halike := op.alike now now
    have hstorable := (halike.gives_settle hm).allStorable halike hm
    rw [List.map_cons, List.filter_cons] at hown
    -- An operation of the account is the first of both lists, any other one of the longer list
    -- only.
    by_cases hop : op.account = A
    · rw [if_pos (by simpa using hop)] at hown
      obtain ⟨⟨now', op'⟩, own, rfl, hhead, htail⟩ := List.map_eq_cons_iff.mp hown
      obtain rfl : op' = op := hhead
      have halike' := op'.alike now' now'
      obtain ⟨hanswer, hafter⟩ := settle_of_account_eq now now' hop hm hm' h
      obtain ⟨hanswers, hend⟩ := ih htail hstorable
        ((halike'.gives_settle hm').allStorable halike' hm') hafter
      refine ⟨?_, hend⟩
      simp only [settleAll, history_cons, answersTo, List.filterMap_cons, if_pos hop]
      exact .cons hanswer hanswers
    · rw [if_neg (by simpa using hop)] at hown
      have hafter : AgreeOn A.Owns ((op.request now).settle m).2 m' := fun k hk => by
        rw [settle_of_account_ne hop hm hk]
        exact h k hk
      obtain ⟨hanswers, hend⟩ := ih hown hstorable hm' hafter
      refine ⟨?_, hend⟩
      simp only [settleAll, history_cons, answersTo, List.filterMap_cons, if_neg hop]
      exact hanswers

/-- **Accounts do not interfere.** Perform any operations on an empty store in memory, and perform
those of them that are addressed to one account, at times of their own, on another. The account is
answered alike, and at the end the records that lie with it agree. -/
theorem own_account_alone (A : AccountId) (x : σ) (y : τ) (ops own : List TimedOperation)
    (hown : own.map (·.2) = (ops.map (·.2)).filter (·.account = A)) (t t' : FileTree) :
    ∃ answers m answers' m',
      (performAll (.ofSpecification σ) (onStore (.memory .empty) x) ops).run t =
        ((answers, onStore (.memory ⟨m, false⟩) x), t) ∧
      (performAll (.ofSpecification τ) (onStore (.memory .empty) y) own).run t' =
        ((answers', onStore (.memory ⟨m', false⟩) y), t') ∧
      List.Forall₂ Answer.Agrees (answersTo A (history ops answers)) answers' ∧
      ∀ k, A.Owns k → Option.Rel (Agree k) (m.get? k) (m'.get? k) := by
  obtain ⟨hanswers, hend⟩ := settleAll_own hown allStorable_empty allStorable_empty
    (allStorable_empty.agreeOn A.Owns)
  exact ⟨_, _, _, _, performAll_ofMap allStorable_empty x ops,
    performAll_ofMap allStorable_empty y own, hanswers, hend⟩

/-! ### An account whose name starts that of another -/

/-- An application of an account. -/
def shopOf (account : String) : ApplicationId := ⟨⟨account⟩, "shop"⟩

/-- A specification without any part. -/
def bare : Specification := ⟨"shop", "", ∅, ∅, ∅, ∅, ∅, ∅, ∅⟩

/-- Nine in the morning. -/
def morning : Instant := ⟨⟨2024, 5, 1⟩, 540, 0, 0, by decide⟩

/-- Nine in the evening. -/
def evening : Instant := ⟨⟨2024, 5, 1⟩, 1260, 0, 0, by decide⟩

/-- Two accounts deploy, and the one with the longer name is removed. -/
def shared : List TimedOperation :=
  [(morning, .addApplication (shopOf "a") bare ⟨"a.jar"⟩),
    (morning, .addApplication (shopOf "ab") bare ⟨"ab.jar"⟩),
    (morning, .removeApplications ⟨"ab"⟩), (morning, .removeAccount ⟨"ab"⟩),
    (morning, .lastUpdated (shopOf "a"))]

/-- The account with the shorter name deploys by itself, in the evening. -/
def alone : List TimedOperation :=
  [(evening, .addApplication (shopOf "a") bare ⟨"a.jar"⟩),
    (evening, .lastUpdated (shopOf "a"))]

theorem own_account_alone_shop : alone.map (·.2) = (shared.map (·.2)).filter (·.account = ⟨"a"⟩) ∧
    ∃ answers m answers' m',
      (performAll (.ofSpecification Unit) (onStore (.memory .empty) ()) shared).run .empty =
        ((answers, onStore (.memory ⟨m, false⟩) ()), .empty) ∧
      (performAll (.ofSpecification Unit) (onStore (.memory .empty) ()) alone).run .empty =
        ((answers', onStore (.memory ⟨m', false⟩) ()), .empty) ∧
      List.Forall₂ Answer.Agrees (answersTo ⟨"a"⟩ (history shared answers)) answers' ∧
      ∀ k, AccountId.Owns ⟨"a"⟩ k → Option.Rel (Agree k) (m.get? k) (m'.get? k) :=
  ⟨rfl, own_account_alone ⟨"a"⟩ () () shared alone rfl .empty .empty⟩

end Registry

end AppRegistry
