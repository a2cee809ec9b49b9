import AppRegistry.Proofs.Registry.Removals
import AppRegistry.Proofs.Registry.Sequences

/-!
# The life of a run

A run starts once and stops once, and only the removal of its account makes it as if it had never
been. `Run.since` follows one run through all that was asked and answered: an operation on another
run, or of another kind, makes no difference to it.

Main result: `Registry.run_lifecycle`. In every reachable state `Run.since` decides whether a run can
start and whether it can stop, and it is what the registry answers for the run.
`Run.isSome_since_iff` says in terms of the past when there is a record.

The invariant is `Run.Tracks`: for every run, the index and the record in the store are those that
`Run.since` gives. Starting, stopping and the removal of an account keep it because their effect is
known exactly; every other operation keeps away from the keys of runs.
-/

namespace AppRegistry

open RegistryTransaction

variable {m m' : OrderedMap Key Json} {k : Key} {a : Answer} {past : List (Operation × Answer)}
  {p : ProgramId} {r : RunId} {time : Int64}

namespace Run

/-! ## Following a run -/

/-- What becomes of the record of a run with one operation and its answer. -/
def follow (p : ProgramId) (r : RunId) (x : Option RunRecord) :
    Operation × Answer → Option RunRecord
  | (.removeAccount a, .reply _) => if a = p.account then none else x
  | (.startRun p' r' time, .reply _) => if p' = p ∧ r' = r then some (.started r time) else x
  | (.stopRun p' r' time status, .reply _) =>
    if p' = p ∧ r' = r then x.map (·.stopped time status) else x
  | _ => x

/-- The record of a run after all that was asked and answered. -/
def since (p : ProgramId) (r : RunId) (past : List (Operation × Answer)) : Option RunRecord :=
  past.foldl (follow p r) none

theorem since_concat (e : Operation × Answer) :
    since p r (past ++ [e]) = follow p r (since p r past) e := by
  rw [since, List.foldl_append]
  rfl

theorem isSome_follow_iff {x : Option RunRecord} {e : Operation × Answer} :
    (follow p r x e).isSome ↔ (∃ time reply, e = (.startRun p r time, .reply reply)) ∨
      x.isSome ∧ ∀ reply, e ≠ (.removeAccount p.account, .reply reply) := by
  obtain ⟨op, a⟩ := e
  cases a with
  | reply b =>
    cases op with
    | removeAccount a =>
      simp only [follow]
      split <;> simp_all
    | startRun p' r' time =>
      simp only [follow]
      split <;> simp_all
    | stopRun p' r' time status =>
      simp only [follow]
      split <;> simp
    | _ => simp [follow]
  | _ => simp [follow]

/-- A run has a record just if it was started and its account has not been removed since. -/
theorem isSome_since_iff : (since p r past).isSome ↔ ∃ before after time reply,
    past = before ++ (.startRun p r time, .reply reply) :: after ∧
      ∀ reply', (.removeAccount p.account, .reply reply') ∉ after := by
  induction past using List.reverseRecOn with
  | nil => simp [since]
  | append_singleton past e ih =>
    rw [since_concat, isSome_follow_iff, ih]
    constructor
    · rintro (⟨time, reply, rfl⟩ | ⟨⟨before, after, time, reply, rfl, hkept⟩, he⟩)
      · exact ⟨past, [], time, reply, rfl, fun _ => List.not_mem_nil⟩
      · refine ⟨before, after ++ [e], time, reply, List.append_assoc _ _ _, fun reply' hmem => ?_⟩
        rcases List.mem_append.mp hmem with hmem | hmem
        · exact hkept reply' hmem
        · exact he reply' (List.mem_singleton.mp hmem).symm
    · rintro ⟨before, after, time, reply, heq, hkept⟩
      rcases List.eq_nil_or_concat after with rfl | ⟨after, e', rfl⟩
      · exact .inl ⟨time, reply, (List.append_inj' heq rfl).2 |> List.singleton_inj.mp⟩
      · rw [List.concat_eq_append, ← List.cons_append, ← List.append_assoc] at heq
        obtain ⟨rfl, he⟩ := List.append_inj' heq rfl
        obtain rfl := List.singleton_inj.mp he
        refine .inr ⟨⟨before, after, time, reply, rfl, fun reply' hmem => ?_⟩, ?_⟩
        · exact hkept reply' (by simp [hmem])
        · rintro reply' rfl
          exact hkept reply' (by simp)

/-- The store is in step with what was asked and answered. -/
structure Tracks (past : List (Operation × Answer)) (m : OrderedMap Key Json) : Prop where
  index : ∀ p r k, Layout.runIndex p r = .ok k →
    m.get? k = (since p r past).map fun x => stored x.start
  record : ∀ p r t k, Layout.run p t r = .ok k →
    m.get? k = ((since p r past).filter (·.start = t)).map stored
  only : ∀ a k, Keyspace.runs.Holds a k → (m.get? k).isSome → ∃ p t r, Layout.run p t r = .ok k
  storable : ∀ p r x, since p r past = some x → ∃ k, Layout.runIndex p r = .ok k
  named : ∀ p r x, since p r past = some x → x.run = r

theorem tracks_nil : Tracks [] ∅ where
  index p r k _ := by simp [since]
  record p r t k _ := by simp [since]
  only a k _ hk := by simp at hk
  storable p r x hx := by simp [since] at hx
  named p r x hx := by simp [since] at hx

theorem Tracks.record_of_since (h : Tracks past m) {x : RunRecord} (hx : since p r past = some x)
    (hk : Layout.run p x.start r = .ok k) : m.get? k = some (stored x) := by
  rw [h.record p r x.start k hk, hx, Option.filter_some, if_pos (by simp)]
  rfl

theorem Tracks.since_of_record (h : Tracks past m) (hk : Layout.run p time r = .ok k) {v : Json}
    (hv : m.get? k = some v) : ∃ x, since p r past = some x ∧ x.start = time ∧ v = stored x := by
  rw [h.record p r time k hk] at hv
  obtain ⟨x, hfilter, rfl⟩ := Option.map_eq_some_iff.mp hv
  obtain ⟨hx, htime⟩ := Option.filter_eq_some_iff.mp hfilter
  exact ⟨x, hx, of_decide_eq_true htime, rfl⟩

/-! ## Starting and stopping -/

section Steps
variable {i : Key} (hi : Layout.runIndex p r = .ok i)
include hi

/-- A run that has not started starts. -/
theorem gives_start (hk : Layout.run p time r = .ok k) (hget : m.get? i = none)
    (h : ((start p r time).request fun _ => .done).Gives m a m') :
    a = .reply .done ∧
      m' = (m.insert k (stored (RunRecord.started r time))).insert i (stored time) := by
  refine h.of_done () ?_
  simp only [Transaction.runOn_bind, hi, hk, runOn_demandKey_ok, runOn_readAt, hget, runOn_put]

/-- A run that has started does not start. -/
theorem gives_start_again {v : Json} (hget : m.get? i = some v)
    (h : ((start p r time).request fun _ => .done).Gives m a m') :
    a = .error (.invalidRunState p r .alreadyStarted) ∧ m' = m := by
  refine h.of_rejected m ?_
  simp only [Transaction.runOn_bind, hi, runOn_demandKey_ok, runOn_readAt, hget, runOn_reject]

/-- A run is looked up through its index. -/
theorem Tracks.runOn_record? (h : Tracks past m) : (record? p r).runOn m =
    (.done ((since p r past).bind fun x =>
      (Layout.run p x.start r).toOption.map fun k => (k, x)), m) := by
  have hindex := h.index p r i hi
  unfold record?
  rw [hi]
  simp only [Transaction.runOn_bind, runOn_fetch, hindex]
  cases hx : since p r past with
  | none => simp only [Option.map_none, Option.bind_none, runOn_pure]
  | some x =>
    obtain ⟨k, hk⟩ := Layout.run_isOk hi x.start
    simp only [Option.map_some, decode?_stored, Option.bind_some, Transaction.runOn_bind, hk,
      runOn_demandKey_ok, runOn_fetch, h.record_of_since hx hk, Except.toOption]
    rfl

theorem Tracks.gives_find (h : Tracks past m) (hg : ((find p r).request .run).Gives m a m') :
    a = .reply (.run (since p r past)) ∧ m' = m := by
  refine hg.of_done (since p r past) ?_
  simp only [Transaction.runOn_bind, h.runOn_record? hi, runOn_pure]
  cases since p r past with
  | none => rfl
  | some x =>
    obtain ⟨k, hk⟩ := Layout.run_isOk hi x.start
    simp only [hk, Option.bind_some, Except.toOption, Option.map_some]

theorem Tracks.gives_stop (h : Tracks past m) {status : String}
    (hg : ((stop p r time status).request fun _ => .done).Gives m a m') :
    match since p r past with
    | none => a = .error (.invalidRunState p r .notRunning) ∧ m' = m
    | some x =>
      if x.isRunning then
        a = .reply .done ∧ ∃ k, Layout.run p x.start r = .ok k ∧
          m' = m.insert k (stored (x.stopped time status))
      else a = .error (.invalidRunState p r .alreadyStopped) ∧ m' = m := by
  have hrun := h.runOn_record? hi
  cases hx : since p r past with
  | none =>
    rw [hx] at hrun
    refine hg.of_rejected m ?_
    simp only [Transaction.runOn_bind, hrun, Option.bind_none, runOn_reject]
  | some x =>
    obtain ⟨k, hk⟩ := Layout.run_isOk hi x.start
    simp only [hx, hk, Option.bind_some, Except.toOption, Option.map_some] at hrun
    simp only
    split
    · next hrunning =>
      suffices h : a = .reply .done ∧ m' = m.insert k (stored (x.stopped time status)) from
        ⟨h.1, k, hk, h.2⟩
      refine hg.of_done () ?_
      simp only [Transaction.runOn_bind, hrun, hrunning, if_true, runOn_put]
    · next hstopped =>
      refine hg.of_rejected m ?_
      simp only [Transaction.runOn_bind, hrun]
      rw [if_neg hstopped]
      rfl

end Steps

/-! ## The invariant, operation by operation -/

/-- A step that leaves every run as it was. -/
theorem Tracks.unchanged {e : Operation × Answer} (h : Tracks past m)
    (hfollow : ∀ p r x, follow p r x e = x)
    (hget : ∀ (s : Keyspace) a k, s = .runs ∨ s = .runIndex → s.Holds a k →
      m'.get? k = m.get? k) :
    Tracks (past ++ [e]) m' := by
  have hsince : ∀ p r, since p r (past ++ [e]) = since p r past := fun p r => by
    rw [since_concat, hfollow]
  constructor
  · intro p r k hk
    rw [hsince, hget _ _ k (.inr rfl) (Layout.holds_runIndex hk)]
    exact h.index p r k hk
  · intro p r t k hk
    rw [hsince, hget _ _ k (.inl rfl) (Layout.holds_run hk)]
    exact h.record p r t k hk
  · intro a k hk hsome
    rw [hget _ _ k (.inl rfl) hk] at hsome
    exact h.only a k hk hsome
  · intro p r x hx
    exact h.storable p r x (hsince p r ▸ hx)
  · intro p r x hx
    exact h.named p r x (hsince p r ▸ hx)

/-- A step that gives one run a record. -/
theorem Tracks.update {e : Operation × Answer} (h : Tracks past m) {i : Key} {x : RunRecord}
    (hi : Layout.runIndex p r = .ok i) (hx : x.run = r)
    (hsince : ∀ p' r', since p' r' (past ++ [e]) =
      if p = p' ∧ r = r' then some x else since p' r' past)
    (hindex : m'.get? i = some (stored x.start))
    (hrecord : ∀ t l, Layout.run p t r = .ok l →
      m'.get? l = if x.start = t then some (stored x) else none)
    (hother : ∀ l, ¬ Owns p r l → m'.get? l = m.get? l) : Tracks (past ++ [e]) m' := by
  constructor
  · intro p' r' l hl
    rw [hsince]
    split
    · next hsame =>
      obtain ⟨rfl, rfl⟩ := hsame
      obtain rfl : i = l := Except.ok.inj (hi.symm.trans hl)
      exact hindex
    · next hne =>
      rw [hother l fun howns => hne (howns.unique (.inl hl))]
      exact h.index p' r' l hl
  · intro p' r' t l hl
    rw [hsince]
    split
    · next hsame =>
      obtain ⟨rfl, rfl⟩ := hsame
      rw [hrecord t l hl, Option.filter_some]
      split <;> simp_all
    · next hne =>
      rw [hother l fun howns => hne (howns.unique (.inr ⟨t, hl⟩))]
      exact h.record p' r' t l hl
  · intro a l hl hsome
    by_cases howns : Owns p r l
    · rcases howns with hindex | ⟨t, hrun⟩
      -- The index of the run lies in another keyspace.
      · cases ((Layout.holds_runIndex hindex).unique hl).1
      · exact ⟨p, t, r, hrun⟩
    · rw [hother l howns] at hsome
      exact h.only a l hl hsome
  · intro p' r' y hy
    rw [hsince] at hy
    split at hy
    · next hsame =>
      obtain ⟨rfl, rfl⟩ := hsame
      exact ⟨i, hi⟩
    · exact h.storable p' r' y hy
  · intro p' r' y hy
    rw [hsince] at hy
    split at hy
    · next hsame =>
      obtain ⟨rfl, rfl⟩ := hsame
      exact Option.some.inj hy ▸ hx
    · exact h.named p' r' y hy

theorem Tracks.started (h : Tracks past m) {i : Key} (hi : Layout.runIndex p r = .ok i)
    (hk : Layout.run p time r = .ok k) (hnone : since p r past = none) {now : Reply} :
    Tracks (past ++ [(.startRun p r time, .reply now)])
      ((m.insert k (stored (RunRecord.started r time))).insert i (stored time)) := by
  have hget : ∀ l, ((m.insert k (stored (RunRecord.started r time))).insert i (stored time)).get? l =
      if i = l then some (stored time)
      else if k = l then some (stored (RunRecord.started r time)) else m.get? l := fun l => by
    rw [OrderedMap.get?_insert, OrderedMap.get?_insert]
  refine h.update (x := .started r time) hi rfl ?_ ?_ ?_ ?_
  · intro p' r'
    rw [since_concat]
    show (if p = p' ∧ r = r' then some (RunRecord.started r' time) else since p' r' past) = _
    split
    · next hsame => rw [hsame.2]
    · rfl
  · rw [hget, if_pos rfl]
    rfl
  · intro t l hl
    -- At another time there is nothing, for the run had no record before.
    rw [hget, if_neg (Layout.runIndex_ne_run hi hl), h.record p r t l hl, hnone]
    simp only [Layout.run_eq_iff hk hl]
    rfl
  · intro l hl
    have hil : i ≠ l := by
      rintro rfl
      exact hl (.inl hi)
    have hkl : k ≠ l := by
      rintro rfl
      exact hl (.inr ⟨time, hk⟩)
    rw [hget, if_neg hil, if_neg hkl]

theorem Tracks.stopped (h : Tracks past m) {x : RunRecord} {status : String} {reply : Reply}
    (hx : since p r past = some x) (hk : Layout.run p x.start r = .ok k) :
    Tracks (past ++ [(.stopRun p r time status, .reply reply)])
      (m.insert k (stored (x.stopped time status))) := by
  obtain ⟨i, hi⟩ := h.storable p r x hx
  refine h.update (x := x.stopped time status) hi (h.named p r x hx) ?_ ?_ ?_ ?_
  · intro p' r'
    rw [since_concat]
    show (if p = p' ∧ r = r' then (since p' r' past).map (·.stopped time status)
      else since p' r' past) = _
    split
    · next hsame =>
      obtain ⟨rfl, rfl⟩ := hsame
      rw [hx]
      rfl
    · rfl
  · rw [OrderedMap.get?_insert, if_neg (Layout.runIndex_ne_run hi hk).symm, h.index p r i hi, hx]
    rfl
  · intro t l hl
    -- At another time there is nothing, for the run has one record.
    rw [OrderedMap.get?_insert, h.record p r t l hl, hx, Option.filter_some]
    simp only [Layout.run_eq_iff hk hl, decide_eq_true_eq]
    show _ = if x.start = t then _ else _
    by_cases ht : x.start = t
    · rw [if_pos ht, if_pos ht]
    · rw [if_neg ht, if_neg ht, if_neg ht]
      rfl
  · intro l hl
    have hkl : k ≠ l := by
      rintro rfl
      exact hl (.inr ⟨x.start, hk⟩)
    rw [OrderedMap.get?_insert, if_neg hkl]

theorem Tracks.removed (h : Tracks past m) {b : AccountId} {reply : Reply}
    (hgone : ∀ k, b.Owns k → m'.get? k = none)
    (hkept : ∀ k, ¬ b.Owns k → m'.get? k = m.get? k) :
    Tracks (past ++ [(.removeAccount b, .reply reply)]) m' := by
  have hsince : ∀ p r, since p r (past ++ [(.removeAccount b, .reply reply)]) =
      if b = p.account then none else since p r past := fun p r => since_concat _
  have hkeeps : ∀ {p : ProgramId} {k}, b ≠ p.account → p.account.Owns k → m'.get? k = m.get? k :=
    fun hne howns => hkept _ fun hb => hne (hb.unique howns)
  constructor
  · intro p r k hk
    have howns : p.account.Owns k := ⟨_, Layout.holds_runIndex hk⟩
    rw [hsince]
    split
    · next hb => exact hgone k (hb ▸ howns)
    · next hb => exact (hkeeps hb howns).trans (h.index p r k hk)
  · intro p r t k hk
    have howns : p.account.Owns k := ⟨_, Layout.holds_run hk⟩
    rw [hsince]
    split
    · next hb => exact hgone k (hb ▸ howns)
    · next hb => exact (hkeeps hb howns).trans (h.record p r t k hk)
  · intro a k hk hsome
    by_cases hb : b.Owns k
    · rw [hgone k hb] at hsome
      cases hsome
    · exact h.only a k hk (hkept k hb ▸ hsome)
  · intro p r x hx
    rw [hsince] at hx
    split at hx
    · cases hx
    · exact h.storable p r x hx
  · intro p r x hx
    rw [hsince] at hx
    split at hx
    · cases hx
    · exact h.named p r x hx

/-- A run that has a record has no other one. -/
theorem Tracks.unique (h : Tracks past m) {x : RunRecord} (hk : Layout.run p x.start r = .ok k)
    (hx : since p r past = some x) {l : Key} {c : String}
    (hl : l.components = ["run", p.account.name, p.application.name, p.name, c, r.name])
    (hsome : (m.get? l).isSome) : l = k := by
  have hin : Keyspace.runs.Holds p.account l := ⟨[p.application.name, p.name, c, r.name], hl.symm⟩
  -- The key is that of some run, and its components say that it is this one at some time.
  obtain ⟨p', t, r', hl'⟩ := h.only p.account l hin hsome
  have hsame := hl.symm.trans ((Layout.spells_run p' t r' l).mp hl')
  simp only [List.cons.injEq, true_and, and_true] at hsame
  obtain ⟨ha, hb, hc, -, hr⟩ := hsame
  obtain rfl := ProgramId.ext_names ha hb hc
  obtain rfl : r = r' := by
    cases r
    cases hr
    rfl
  obtain ⟨v, hv⟩ := Option.isSome_iff_exists.mp hsome
  obtain ⟨y, hy, rfl, -⟩ := h.since_of_record hl' hv
  obtain rfl : x = y := Option.some.inj (hx.symm.trans hy)
  exact Except.ok.inj (hl'.symm.trans hk)

/-- **The index is in step with the records**: it holds a time just if there is one record of the
run, at the key of this time. -/
theorem Tracks.index_iff (h : Tracks past m) {i : Key} (hi : Layout.runIndex p r = .ok i)
    (time : Int64) : m.get? i = some (stored time) ↔
      ∃ (k : Key) (x : RunRecord), Layout.run p time r = .ok k ∧ m.get? k = some (stored x) ∧
        x.run = r ∧ x.start = time ∧ ∀ l c,
          l.components = ["run", p.account.name, p.application.name, p.name, c, r.name] →
          (m.get? l).isSome → l = k := by
  rw [h.index p r i hi]
  constructor
  · intro hsome
    obtain ⟨x, hx, htime⟩ := Option.map_eq_some_iff.mp hsome
    obtain rfl : x.start = time := stored_inj htime
    obtain ⟨k, hk⟩ := Layout.run_isOk hi x.start
    exact ⟨k, x, hk, h.record_of_since hx hk, h.named p r x hx, rfl,
      fun l c hl hsome => h.unique hk hx hl hsome⟩
  · -- The record at this time is that of the run, so the index holds its time.
    rintro ⟨k, x, hk, hget, -, rfl, -⟩
    obtain ⟨y, hy, -, heq⟩ := h.since_of_record hk hget
    obtain rfl : x = y := stored_inj heq
    rw [hy]
    rfl

/-- An error leaves every run as it was. -/
theorem follow_error (op : Operation) (e : RegistryError) (x : Option RunRecord) :
    follow p r x (op, .error e) = x := by
  cases op <;> rfl

theorem Tracks.failed (h : Tracks past m) (op : Operation) (e : RegistryError) :
    Tracks (past ++ [(op, .error e)]) m :=
  h.unchanged (fun _ _ _ => follow_error op e _) fun _ _ _ _ _ => rfl

theorem Tracks.gives_startRun (h : Tracks past m)
    (hg : ((start p r time).request fun _ => .done).Gives m a m') :
    Tracks (past ++ [(.startRun p r time, a)]) m' := by
  cases hi : Layout.runIndex p r with
  | error e =>
    obtain ⟨rfl, rfl⟩ := hg.of_rejected (e := .storage (.key e)) m (by
      simp only [Transaction.runOn_bind, hi, runOn_demandKey_error])
    exact h.failed _ _
  | ok i =>
    have hindex := h.index p r i hi
    cases hx : since p r past with
    | some x =>
      rw [hx] at hindex
      obtain ⟨rfl, rfl⟩ := gives_start_again hi hindex hg
      exact h.failed _ _
    | none =>
      rw [hx] at hindex
      obtain ⟨k, hk⟩ := Layout.run_isOk hi time
      obtain ⟨rfl, rfl⟩ := gives_start hi hk hindex hg
      exact h.started hi hk hx

theorem Tracks.gives_stopRun (h : Tracks past m) {status : String}
    (hg : ((stop p r time status).request fun _ => .done).Gives m a m') :
    Tracks (past ++ [(.stopRun p r time status, a)]) m' := by
  cases hi : Layout.runIndex p r with
  | error e =>
    obtain ⟨rfl, rfl⟩ := hg.of_rejected (e := .invalidRunState p r .notRunning) m (by
      simp only [record?, hi, Transaction.runOn_bind, runOn_pure, runOn_reject])
    exact h.failed _ _
  | ok i =>
    have hends := h.gives_stop hi hg
    cases hx : since p r past with
    | none =>
      rw [hx] at hends
      obtain ⟨rfl, rfl⟩ := hends
      exact h.failed _ _
    | some x =>
      simp only [hx] at hends
      split at hends
      · obtain ⟨rfl, k, hk, rfl⟩ := hends
        exact h.stopped hx hk
      · obtain ⟨rfl, rfl⟩ := hends
        exact h.failed _ _

/-- Only starting and stopping a run and removing an account reach the records of runs. -/
theorem not_writes_of_runs {op : Operation} {s : Keyspace} {b : AccountId}
    (hs : s = .runs ∨ s = .runIndex) (hk : s.Holds b k) (hstart : ∀ p r time, op ≠ .startRun p r time)
    (hstop : ∀ p r time status, op ≠ .stopRun p r time status)
    (hremove : ∀ a, op ≠ .removeAccount a) : ¬ op.Writes k := by
  have hne : ∀ {s' : Keyspace} {a}, s'.Holds a k → s' = .runs ∨ s' = .runIndex :=
    fun h => (h.unique hk).1 ▸ hs
  intro h
  cases op with
  | addApplication => rcases h with h | h | h <;> exact absurd (hne h) (by decide)
  | removeApplication | removeApplications => rcases h with h | h <;> exact absurd (hne h) (by decide)
  | setInstances | setArguments => exact absurd (hne h) (by decide)
  | removeAccount a => exact hremove a rfl
  | startRun p r time => exact hstart p r time rfl
  | stopRun p r time status => exact hstop p r time status rfl
  | _ => exact h

/-- **Every operation keeps the store in step.** -/
theorem Tracks.gives (h : Tracks past m) (hm : AllStorable m) {op : Operation} {now : Instant}
    (hg : (op.request now).Gives m a m') : Tracks (past ++ [(op, a)]) m' := by
  have hkept : ∀ k, ¬ op.Writes k → m'.get? k = m.get? k := fun k hk =>
    hg.get?_eq (op.alike now now) hm hk
  -- All operations but three leave the records and the index of runs alone.
  by_cases hruns : (∀ p r time, op ≠ .startRun p r time) ∧
      (∀ p r time status, op ≠ .stopRun p r time status) ∧ ∀ b, op ≠ .removeAccount b
  · obtain ⟨hstart, hstop, hremove⟩ := hruns
    refine h.unchanged (fun p r x => ?_) fun s b k hs hk =>
      hkept k (not_writes_of_runs hs hk hstart hstop hremove)
    cases op with
    | startRun p r time => exact absurd rfl (hstart p r time)
    | stopRun p r time status => exact absurd rfl (hstop p r time status)
    | removeAccount b => exact absurd rfl (hremove b)
    | _ => rfl
  · cases op with
    | startRun p r time => exact h.gives_startRun hg
    | stopRun p r time status => exact h.gives_stopRun hg
    | removeAccount b =>
      obtain ⟨rfl, hgone⟩ := gives_removeAccount hg
      exact h.removed hgone hkept
    | _ => exact absurd ⟨nofun, nofun, nofun⟩ hruns

end Run

/-! ## Reachable states -/

namespace Registry

variable {σ : Type} {L : Loader σ} {g : Registry σ} {t : FileTree}

/-- In every reachable state the records of runs are in step with what was asked and answered. -/
theorem Reached.tracks (h : Reached L past g t) : ∃ m, g.Holds m t ∧ Run.Tracks past m :=
  h.exists_holds Run.tracks_nil (fun _ _ _ _ _ _ hm h hg _ => h.gives hm hg)
    fun _ op e _ h => h.failed op (.storage e)

/-- A question that the store has room for gets what it gives over the map. -/
theorem Holds.gives_ask {α : Type} (h : g.Holds m t) (now : Instant) (op : Operation)
    {f : α → Reply} {tx : RegistryTransaction α} (hop : op.request now = .ask f tx)
    (hroom : ∀ k, op.Reads k → g.store.HasRoom k) :
    ∃ m', (op.request now).Gives m ((perform L g now op).run t).1.1 m' := by
  have halike := op.alike now now
  rw [perform_eq_serve]
  generalize hrun : (g.serve L (op.request now)).run t = ends
  obtain ⟨⟨a, g'⟩, t'⟩ := ends
  rw [hop] at halike hrun
  obtain ⟨m', -, -, -, hgives | ⟨-, -, k, hk, hnone⟩⟩ := h.ask halike hrun
  · exact ⟨m', hop ▸ hgives⟩
  · exact absurd (hroom k hk) hnone

/-- **The life of a run.** In every reachable state, a run whose keys are valid and for whose files
there is room starts just if it has no record since the removal of its account, it stops just if it
has started and not stopped, and its record is that of its own start and stop. Its index holds a
time if and only if it has exactly one record, and that record is at the key of this time and
carries the run and the time. -/
theorem run_lifecycle (h : Reached L past g t) {i : Key} (hi : Layout.runIndex p r = .ok i)
    (hroom : ∀ k, Run.Owns p r k → g.store.HasRoom k) :
    (∀ now time, ((perform L g now (.startRun p r time)).run t).1.1 =
      match Run.since p r past with
      | none => .reply .done
      | some _ => .error (.invalidRunState p r .alreadyStarted)) ∧
    (∀ now time status, ((perform L g now (.stopRun p r time status)).run t).1.1 =
      match Run.since p r past with
      | none => .error (.invalidRunState p r .notRunning)
      | some x =>
        if x.isRunning then .reply .done else .error (.invalidRunState p r .alreadyStopped)) ∧
    (∀ now, ((perform L g now (.run p r)).run t).1.1 = .reply (.run (Run.since p r past))) ∧
    ∃ m, g.store.Holds m t ∧ ∀ time, m.get? i = some (stored time) ↔
      ∃ (k : Key) (x : RunRecord), Layout.run p time r = .ok k ∧ m.get? k = some (stored x) ∧
        x.run = r ∧ x.start = time ∧ ∀ l c,
          l.components = ["run", p.account.name, p.application.name, p.name, c, r.name] →
          (m.get? l).isSome → l = k := by
  obtain ⟨m, hholds, htracks⟩ := h.tracks
  have hindex := htracks.index p r i hi
  refine ⟨fun now time => ?_, fun now time status => ?_, fun now => ?_, m, hholds.store, ?_⟩
  · obtain ⟨m', hg⟩ := hholds.gives_ask (L := L) now (.startRun p r time) rfl hroom
    cases hx : Run.since p r past with
    | none =>
      rw [hx] at hindex
      obtain ⟨k, hk⟩ := Layout.run_isOk hi time
      exact (Run.gives_start hi hk hindex hg).1
    | some x =>
      rw [hx] at hindex
      exact (Run.gives_start_again hi hindex hg).1
  · obtain ⟨m', hg⟩ := hholds.gives_ask (L := L) now (.stopRun p r time status) rfl hroom
    have hends := htracks.gives_stop hi hg
    cases hx : Run.since p r past with
    | none =>
      rw [hx] at hends
      exact hends.1
    | some x =>
      simp only [hx] at hends
      show _ = if x.isRunning then Answer.reply .done else .error (.invalidRunState p r .alreadyStopped)
      split at hends
      · next hrunning => exact hends.1.trans (if_pos hrunning).symm
      · next hstopped => exact hends.1.trans (if_neg hstopped).symm
  · obtain ⟨m', hg⟩ := hholds.gives_ask (L := L) now (.run p r) rfl hroom
    exact (htracks.gives_find hi hg).1
  · exact fun time => htracks.index_iff hi time

/-! ### A run that has ended -/

/-- A program of a shop. -/
def basket : ProgramId := ⟨⟨⟨"acme"⟩, "shop"⟩, "basket"⟩

/-- The program runs once, from the fifth to the ninth unit of time. -/
def once : List TimedOperation :=
  let noon : Instant := ⟨⟨2024, 5, 1⟩, 720, 0, 0, by decide⟩
  [(noon, .startRun basket ⟨"r1"⟩ 5), (noon, .stopRun basket ⟨"r1"⟩ 9 "ok")]

theorem reached_once : ∃ g t,
    Reached (.ofSpecification Unit) (history once [.reply .done, .reply .done]) g t ∧
      g.store.root? = none :=
  reached_inMemory _ () .empty _ _ (by decide) (by decide)

theorem run_lifecycle_once : ∃ g t,
    Reached (.ofSpecification Unit) (history once [.reply .done, .reply .done]) g t ∧
    (∀ now time, ((perform (.ofSpecification Unit) g now (.startRun basket ⟨"r1"⟩ time)).run t).1.1 =
      .error (.invalidRunState basket ⟨"r1"⟩ .alreadyStarted)) ∧
    (∀ now time status,
      ((perform (.ofSpecification Unit) g now (.stopRun basket ⟨"r1"⟩ time status)).run t).1.1 =
        .error (.invalidRunState basket ⟨"r1"⟩ .alreadyStopped)) ∧
    ∀ now, ((perform (.ofSpecification Unit) g now (.run basket ⟨"r1"⟩)).run t).1.1 =
      .reply (.run (some ⟨⟨"r1"⟩, 5, some 9, some "ok"⟩)) := by
  obtain ⟨g, t, hreached, hroot⟩ := reached_once
  have hsince : Run.since basket ⟨"r1"⟩ (history once [.reply .done, .reply .done]) =
      some ⟨⟨"r1"⟩, 5, some 9, some "ok"⟩ := by decide
  have hi : Layout.runIndex basket ⟨"r1"⟩ =
      .ok ⟨["runidx", "acme", "shop", "basket", "r1"], by decide⟩ := rfl
  obtain ⟨hstart, hstop, hfind, -⟩ := run_lifecycle hreached hi fun _ _ root hr =>
    absurd (hroot.symm.trans hr) nofun
  simp only [hsince] at hstart hstop hfind
  exact ⟨g, t, hreached, hstart, hstop, hfind⟩

end Registry

end AppRegistry
