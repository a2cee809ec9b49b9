import AppRegistry.Proofs.Registry.Lifecycle
import AppRegistry.Proofs.Registry.Listing

/-!
# The runs of a program

The runs of a program make up one list, newest first, and by name among those that started together
(`Run.Before`). The history is a part of this list, and so are the active runs.

Main result: `Registry.run_queries`, for every state that operations on an empty store lead to.

Key order is the order of the list because the record of a run lies under its start time as
`Layout.descending` writes it, and then under its name. So the records that a range finds are already in
order, and the bounds of a range are bounds of the start time.
-/

namespace AppRegistry

open RegistryTransaction

variable {m : OrderedMap Key Json} {k l : Key} {past : List (Operation × Answer)} {p : ProgramId}
  {r r' : RunId} {time time' low high : Int64} {t t' : FileTree} {α β : Type}

/-! ## Key order and the bounds of a range -/

namespace Run

/-- One run stands before another: it started later, or they started together and its name comes
first. -/
def Before (x y : RunRecord) : Prop :=
  y.start < x.start ∨ x.start = y.start ∧ x.run.name < y.run.name

end Run

namespace Layout

theorem run_lt (hk : run p time r = .ok k) (hl : run p time' r' = .ok l) (h : compare k l = .lt) :
    time' < time ∨ time = time' ∧ r.name < r'.name := by
  rw [Key.compare_eq, (spells_run p time r k).mp hk, (spells_run p time' r' l).mp hl] at h
  replace h := (compare_append_left ["run", p.account.name, p.application.name, p.name]
    [descending time, r.name] [descending time', r'.name]).symm.trans h
  rw [List.compare_cons_cons, List.compare_cons_cons] at h
  cases htime : compare (descending time) (descending time') with
  | lt => exact .inl (descending_lt_iff.mp (compare_eq_lt_iff_lt.mp htime))
  | gt =>
    rw [htime] at h
    cases h
  | eq =>
    refine .inr ⟨descending_inj.mp (Std.LawfulEqCmp.eq_of_compare htime), ?_⟩
    cases hname : compare r.name r'.name with
    | lt => exact compare_eq_lt_iff_lt.mp hname
    | _ =>
      rw [htime, hname] at h
      cases h

variable (hk : ofProgram .runs p = .ok k)
include hk

theorem components_run (hl : run p time r = .ok l) :
    l.components = k.components ++ [descending time, r.name] := by
  rw [(spells_run p time r l).mp hl, (spells_ofProgram .runs p k).mp hk]
  rfl

/-- The bounds of a range of runs are bounds of the start time. -/
theorem contains_between_iff (hl : run p time r = .ok l) :
    (KeyRange.between k (descending high) (descending low)).contains l = true ↔
      low ≤ time ∧ time ≤ high := by
  rw [KeyRange.contains_iff, components_run hk hl, ← admits_descending_iff (k := k)]
  constructor
  · rintro (⟨-, hlower, -⟩ | ⟨c, rest, heq, hc⟩)
    · cases hlower
    · obtain ⟨rfl, -⟩ := List.cons.inj (List.append_cancel_left heq)
      exact hc
  · exact fun hc => .inr ⟨descending time, [r.name], rfl, hc⟩

end Layout

/-! ## The list of the runs of a program -/

namespace Run

/-- A record at or below the key of a program is that of one of its runs. -/
theorem Tracks.of_isBelow (h : Tracks past m) (hk : Layout.ofProgram .runs p = .ok k)
    (hl : l.isBelow k = true) {v : Json} (hv : m.get? l = some v) :
    ∃ x, v = stored x ∧ since p x.run past = some x ∧ Layout.run p x.start x.run = .ok l := by
  obtain ⟨p', t, r, hrun⟩ := h.only p.account l
    ((Layout.spells_ofProgram .runs p).holds hk (Key.isBelow_iff.mp hl)) (by rw [hv]; rfl)
  obtain rfl := ((Layout.isBelow_runs_iff hrun hk).mp hl).symm
  obtain ⟨x, hx, rfl, rfl⟩ := h.since_of_record hrun hv
  obtain rfl := h.named p r x hx
  exact ⟨x, rfl, hx, hrun⟩

/-- What lies below the key of a program is the list of its runs in order. -/
theorem Tracks.exists_runs (h : Tracks past m) (hk : Layout.ofProgram .runs p = .ok k) :
    ∃ found : List (Key × RunRecord),
      Transaction.recordsIn m (.all k) = found.map (fun e => (e.1, stored e.2)) ∧
      (∀ e ∈ found, since p e.2.run past = some e.2 ∧ Layout.run p e.2.start e.2.run = .ok e.1) ∧
      (∀ r x, since p r past = some x → ∃ l, (l, x) ∈ found) ∧
      found.Pairwise fun e e' => Before e.2 e'.2 := by
  have hmem : ∀ e, e ∈ Transaction.recordsIn m (.all k) ↔
      m.get? e.1 = some e.2 ∧ e.1.isBelow k = true := fun e => by
    rw [Transaction.recordsIn, List.mem_filter, Transaction.contains_all,
      OrderedMap.mem_toList_iff]
  obtain ⟨found, hfound⟩ := exists_eq_map_stored (l := Transaction.recordsIn m (.all k))
    fun e he => by
      obtain ⟨hv, hl⟩ := (hmem e).mp he
      obtain ⟨x, hx, -⟩ := h.of_isBelow hk hl hv
      exact ⟨x, hx⟩
  have hkept : ∀ e ∈ found, since p e.2.run past = some e.2 ∧
      Layout.run p e.2.start e.2.run = .ok e.1 := by
    intro e he
    have hin : (e.1, stored e.2) ∈ Transaction.recordsIn m (.all k) :=
      hfound ▸ List.mem_map_of_mem he
    obtain ⟨hv, hl⟩ := (hmem _).mp hin
    obtain ⟨x, hx, hrest⟩ := h.of_isBelow hk hl hv
    obtain rfl : e.2 = x := stored_inj hx
    exact hrest
  -- Every run lies below the key of its program, and the map is in key order.
  refine ⟨found, hfound, hkept, fun r x hx => ?_, ?_⟩
  · obtain ⟨i, hi⟩ := h.storable p r x hx
    obtain ⟨l, hl⟩ := Layout.run_isOk hi x.start
    have hin := (hmem (l, stored x)).mpr ⟨h.record_of_since hx hl,
      (Layout.isBelow_runs_iff hl hk).mpr rfl⟩
    rw [hfound] at hin
    obtain ⟨e, he, heq⟩ := List.mem_map.mp hin
    simp only [Prod.mk.injEq] at heq
    obtain ⟨rfl, hex⟩ := heq
    obtain rfl := stored_inj hex
    exact ⟨e.1, he⟩
  · have hsorted : (found.map fun e => (e.1, stored e.2)).Pairwise
        fun e e' => compare e.1 e'.1 = .lt := by
      rw [← hfound]
      exact m.ascending.sublist List.filter_sublist
    refine (List.pairwise_map.mp hsorted).imp_of_mem fun he he' hlt => ?_
    exact Layout.run_lt (hkept _ he).2 (hkept _ he').2 hlt

end Run

/-! ## Queries -/

section Queries
variable {found : List (Key × RunRecord)}

/-- The runs between two bounds, as a part of the list of all runs. -/
theorem recordsIn_between (hk : Layout.ofProgram .runs p = .ok k)
    (hfound : Transaction.recordsIn m (.all k) = found.map fun e => (e.1, stored e.2))
    (hkeys : ∀ e ∈ found, Layout.run p e.2.start e.2.run = .ok e.1) :
    Transaction.recordsIn m (.between k (Layout.descending high) (Layout.descending low)) =
      (found.filter fun e => low ≤ e.2.start ∧ e.2.start ≤ high).map fun e =>
        (e.1, stored e.2) := by
  let range := KeyRange.between k (Layout.descending high) (Layout.descending low)
  calc Transaction.recordsIn m range
      = (Transaction.recordsIn m (.all k)).filter fun e => range.contains e.1 := by
        rw [Transaction.recordsIn, Transaction.recordsIn, List.filter_filter]
        refine List.filter_congr fun e _ => ?_
        rw [Transaction.contains_all, Bool.eq_iff_iff, Bool.and_eq_true]
        exact ⟨fun he => ⟨he, KeyRange.isBelow_of_contains he⟩, And.left⟩
    _ = (found.filter fun e => range.contains e.1).map fun e => (e.1, stored e.2) := by
        rw [hfound, List.filter_map]
        rfl
    _ = _ := by
        refine congrArg _ (List.filter_congr fun e he => ?_)
        rw [Bool.eq_iff_iff, decide_eq_true_eq]
        exact Layout.contains_between_iff hk (hkeys e he)

namespace Registry

variable {σ : Type} {L : Loader σ} {g : Registry σ}

theorem Holds.answers_active (h : g.Holds m t) (hk : Layout.ofProgram .runs p = .ok k)
    (hfound : Transaction.recordsIn m (.all k) = found.map fun e => (e.1, stored e.2))
    (now : Instant) : ((perform L g now (.activeRuns p)).run t).1.1 =
      .reply (.runs ((found.map (·.2)).filter fun x => x.stop.isNone)) := by
  have hop : (Operation.activeRuns p).request now = .ask .runs (do
      return ((← fetchRange RunRecord (.all k)).map (·.2)).filter (·.isRunning)) := by
    show (Run.active p).request .runs = _
    unfold Run.active
    rw [hk]
    rfl
  exact h.answers_fetchRange hop hfound

theorem Holds.answers_history (h : g.Holds m t) (hk : Layout.ofProgram .runs p = .ok k)
    (hfound : Transaction.recordsIn m (.all k) = found.map fun e => (e.1, stored e.2))
    (hkeys : ∀ e ∈ found, Layout.run p e.2.start e.2.run = .ok e.1) (now : Instant)
    (low high : Int64) (limit : Nat) :
    ((perform L g now (.runHistory p low high limit)).run t).1.1 =
      .reply (.runs (((found.map (·.2)).filter fun x =>
        x.stop.isSome ∧ low ≤ x.start ∧ x.start ≤ high).take limit)) := by
  -- An empty window is answered without a look at the store.
  by_cases hwindow : high < low ∨ limit = 0
  · have hop : (Operation.runHistory p low high limit).request now = .known (.reply (.runs [])) := by
      show (Run.history p low high limit).request .runs = _
      rw [Run.history, if_pos hwindow]
      rfl
    rw [perform_eq_serve, hop]
    refine congrArg (fun l => Answer.reply (.runs l)) ?_
    rcases hwindow with hwindow | rfl
    · rw [List.filter_eq_nil_iff.mpr, List.take_nil]
      rintro x - hx
      obtain ⟨-, hlow, hhigh⟩ := of_decide_eq_true hx
      exact Int64.lt_irrefl (Int64.lt_of_lt_of_le hwindow (Int64.le_trans hlow hhigh))
    · rw [List.take_zero]
  · have hop : (Operation.runHistory p low high limit).request now = .ask .runs (do
        let found ← fetchRange RunRecord
          (.between k (Layout.descending high) (Layout.descending low))
        return ((found.map (·.2)).filter fun r => !r.isRunning).take limit) := by
      show (Run.history p low high limit).request .runs = _
      rw [Run.history, if_neg hwindow, hk]
      rfl
    rw [h.answers_fetchRange hop (recordsIn_between hk hfound hkeys)]
    -- The runs that are still going are left out before the limit counts.
    refine congrArg (fun l => Answer.reply (.runs (List.take limit l))) ?_
    rw [List.filter_map, List.filter_map, List.filter_filter]
    refine congrArg _ (List.filter_congr fun e _ => ?_)
    simp only [Function.comp_apply, RunRecord.isRunning, Bool.decide_and, Bool.decide_eq_true,
      Option.not_isNone]

/-- **Queries of runs are exact.** In every reachable state, the runs of a program whose keys are
valid make up one list in order. The history is what has stopped and started within the bounds, in
the order of the list and up to the limit; the active runs are what has not stopped. So every run
that has started is either active or in the history without bounds, and not in both. -/
theorem run_queries (h : Reached L past g t) (hk : Layout.ofProgram .runs p = .ok k) :
    ∃ runs : List RunRecord,
      (∀ x, x ∈ runs ↔ ∃ r, Run.since p r past = some x) ∧ runs.Pairwise Run.Before ∧
      (∀ now low high limit, ((perform L g now (.runHistory p low high limit)).run t).1.1 =
        .reply (.runs ((runs.filter fun x =>
          x.stop.isSome ∧ low ≤ x.start ∧ x.start ≤ high).take limit))) ∧
      (∀ now, ((perform L g now (.activeRuns p)).run t).1.1 =
        .reply (.runs (runs.filter fun x => x.stop.isNone))) ∧
      ∀ now limit, runs.length ≤ limit → ∃ active stopped,
        ((perform L g now (.activeRuns p)).run t).1.1 = .reply (.runs active) ∧
        ((perform L g now (.runHistory p Int64.minValue Int64.maxValue limit)).run t).1.1 =
          .reply (.runs stopped) ∧
        ∀ r x, Run.since p r past = some x → (x ∈ active ↔ x ∉ stopped) := by
  obtain ⟨m, hholds, htracks⟩ := h.tracks
  obtain ⟨found, hfound, hkept, hall, hordered⟩ := htracks.exists_runs hk
  have hhistory := hholds.answers_history (L := L) hk hfound fun e he => (hkept e he).2
  have hactive := hholds.answers_active (L := L) hk hfound
  have hmem : ∀ x, x ∈ found.map (·.2) ↔ ∃ r, Run.since p r past = some x := by
    intro x
    constructor
    · intro hx
      obtain ⟨e, he, rfl⟩ := List.mem_map.mp hx
      exact ⟨_, (hkept e he).1⟩
    · rintro ⟨r, hx⟩
      obtain ⟨l, hl⟩ := hall r x hx
      exact List.mem_map_of_mem (f := Prod.snd) hl
  replace hordered := List.pairwise_map.mpr hordered
  generalize found.map (·.2) = runs at hhistory hactive hmem hordered
  refine ⟨runs, hmem, hordered, hhistory, hactive, fun now limit hlimit => ?_⟩
  refine ⟨_, _, hactive now, hhistory now _ _ limit, fun r x hx => ?_⟩
  have hin : x ∈ runs := (hmem x).mpr ⟨r, hx⟩
  rw [List.take_of_length_le (Nat.le_trans (List.length_filter_le _ _) hlimit), List.mem_filter,
    List.mem_filter, and_iff_right hin, and_iff_right hin]
  -- The two filters are complementary, for the bounds exclude no time.
  cases x.stop <;> simp [Int64.minValue_le, Int64.le_maxValue]

theorem run_queries_once : ∃ g t,
    Reached (.ofSpecification Unit) (history once [.reply .done, .reply .done]) g t ∧
    ∃ runs : List RunRecord, ⟨⟨"r1"⟩, 5, some 9, some "ok"⟩ ∈ runs ∧
      (∀ now low high limit,
        ((perform (.ofSpecification Unit) g now (.runHistory basket low high limit)).run t).1.1 =
          .reply (.runs ((runs.filter fun x =>
            x.stop.isSome ∧ low ≤ x.start ∧ x.start ≤ high).take limit))) ∧
      ∀ now, ((perform (.ofSpecification Unit) g now (.activeRuns basket)).run t).1.1 =
        .reply (.runs (runs.filter fun x => x.stop.isNone)) := by
  obtain ⟨g, t, hreached, -⟩ := reached_once
  have hk : Layout.ofProgram .runs basket =
      .ok ⟨["run", "acme", "shop", "basket"], by decide⟩ := rfl
  obtain ⟨runs, hmem, -, hhistory, hactive, -⟩ := run_queries hreached hk
  exact ⟨g, t, hreached, runs, (hmem _).mpr ⟨⟨"r1"⟩, by decide⟩, hhistory, hactive⟩

end Registry

end Queries

end AppRegistry
