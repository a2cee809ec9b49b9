import AppRegistry.Proofs.Key.Text
import AppRegistry.Proofs.Records.Ranges
import AppRegistry.Proofs.Registry.Times

/-!
# Where things are kept

Each key of the storage layout is a fixed list of components (`Layout.Spells`), so a key tells the
keyspace, the account and, for a run, the program, the start time and the run that it was made of.

Main results: a key lies with one account in one keyspace (`Keyspace.Holds.unique`), and it is a key
of one run (`Run.Owns.unique`).
-/

namespace AppRegistry

variable {k l : Key} {c : String}

namespace Layout

/-- A key of the layout has these components, whenever there is such a key. -/
def Spells (x : Except KeyError Key) (l : List String) : Prop := ∀ k, x = .ok k ↔ k.components = l

theorem Spells.child {x : Except KeyError Key} {l : List String} (h : Spells x l) (c : String) :
    Spells (do (← x).child c) (l ++ [c]) := by
  intro k
  cases x with
  | error e =>
    refine ⟨nofun, fun hk => ?_⟩
    have hl : ∀ d ∈ l, Component.IsValid d := fun d hd =>
      k.valid d (hk ▸ List.mem_append_left _ hd)
    cases (h ⟨l, hl⟩).mpr rfl
  | ok base =>
    have hbase := (h base).mp rfl
    exact hbase ▸ Key.child_eq_ok_iff

theorem Spells.isOk {x : Except KeyError Key} {l : List String} (h : Spells x l)
    (hl : ∀ c ∈ l, Component.IsValid c) : ∃ k, x = .ok k := ⟨⟨l, hl⟩, (h ⟨l, hl⟩).mpr rfl⟩

/-- All components of a key that there is are valid. -/
theorem Spells.isValid {x : Except KeyError Key} {l : List String} (h : Spells x l)
    (hx : x = .ok k) : ∀ c ∈ l, Component.IsValid c := (h k).mp hx ▸ k.valid

/-- A key of the layout is made just if its components are valid. -/
theorem Spells.isOk_iff {x : Except KeyError Key} {l : List String} (h : Spells x l) :
    (∃ k, x = .ok k) ↔ ∀ c ∈ l, Component.IsValid c :=
  ⟨fun ⟨_, hk⟩ => h.isValid hk, h.isOk⟩

/-- A key of the layout lies below another if its components start with those of the other. -/
theorem Spells.isBelow_iff {x y : Except KeyError Key} {l l' : List String} (h : Spells x l)
    (h' : Spells y l') {base : Key} (hx : x = .ok k) (hy : y = .ok base) :
    k.isBelow base = true ↔ l' <+: l := by
  rw [Key.isBelow_iff, (h k).mp hx, (h' base).mp hy]

/-- A key is spelled in one way. -/
theorem Spells.unique {x y : Except KeyError Key} {l l' : List String} (h : Spells x l)
    (h' : Spells y l') (hx : x = .ok k) (hy : y = .ok k) : l = l' :=
  ((h k).mp hx).symm.trans ((h' k).mp hy)

variable (s : Keyspace) (a : AccountId) (p : ProgramId) (time : Int64) (r : RunId)

theorem spells_ofAccount : Spells (ofAccount s a) [s.name, a.name] :=
  fun _ => Key.ofComponents_eq_ok_iff

theorem spells_ofApplication (id : ApplicationId) :
    Spells (ofApplication s id) [s.name, id.account.name, id.name] :=
  (spells_ofAccount s id.account).child id.name

theorem spells_ofProgram :
    Spells (ofProgram s p) [s.name, p.account.name, p.application.name, p.name] :=
  (spells_ofApplication s p.application).child p.name

theorem spells_stream (name : String) : Spells (stream a name) ["stream", a.name, name] :=
  (spells_ofAccount .streams a).child name

theorem spells_dataset (name : String) : Spells (dataset a name) ["dataset", a.name, name] :=
  (spells_ofAccount .datasets a).child name

theorem spells_run : Spells (run p time r)
    ["run", p.account.name, p.application.name, p.name, descending time, r.name] := by
  have h := ((spells_ofProgram .runs p).child (descending time)).child r.name
  unfold run
  simp only [bind_assoc] at h
  exact h

theorem spells_runIndex : Spells (runIndex p r)
    ["runidx", p.account.name, p.application.name, p.name, r.name] :=
  (spells_ofProgram .runIndex p).child r.name

end Layout

/-! ## Keyspaces and accounts -/

theorem Keyspace.name_inj {s s' : Keyspace} (h : s.name = s'.name) : s = s' := by
  cases s <;> cases s' <;> first | rfl | exact absurd h (by decide)

theorem Keyspace.mem_all (s : Keyspace) : s ∈ Keyspace.all := by
  cases s <;> decide

theorem Keyspace.isValid_name (s : Keyspace) : Component.IsValid s.name := by
  cases s <;> decide

/-- Whether a key lies with an account in a keyspace. -/
def Keyspace.Holds (s : Keyspace) (a : AccountId) (k : Key) : Prop :=
  [s.name, a.name] <+: k.components

/-- Whether a key lies with an account. -/
def AccountId.Owns (a : AccountId) (k : Key) : Prop := ∃ s : Keyspace, s.Holds a k

/-- **A key lies with one account in one keyspace.** Components are compared as a whole, so the
name of one account may start that of another. -/
theorem Keyspace.Holds.unique {s s' : Keyspace} {a a' : AccountId} (h : s.Holds a k)
    (h' : s'.Holds a' k) : s = s' ∧ a = a' := by
  have hsame := (List.prefix_of_prefix_length_le h h' (Nat.le_refl 2)).eq_of_length rfl
  simp only [List.cons.injEq, and_true] at hsame
  obtain ⟨a⟩ := a
  exact ⟨Keyspace.name_inj hsame.1, congrArg AccountId.mk hsame.2⟩

theorem AccountId.Owns.unique {a a' : AccountId} (h : a.Owns k) (h' : a'.Owns k) : a = a' := by
  obtain ⟨s, h⟩ := h
  obtain ⟨s', h'⟩ := h'
  exact (h.unique h').2

namespace Layout

variable {s : Keyspace} {a : AccountId} {x : Except KeyError Key} {rest : List String}

/-- A key of the layout lies in its keyspace, and so does every key below it. -/
theorem Spells.holds (h : Spells x (s.name :: a.name :: rest)) (hx : x = .ok k)
    (hl : k.components <+: l.components) : s.Holds a l := by
  refine List.IsPrefix.trans ?_ hl
  rw [(h k).mp hx]
  exact List.prefix_append [s.name, a.name] rest

theorem holds_of_isBelow (hk : ofAccount s a = .ok k) (hl : l.isBelow k = true) : s.Holds a l :=
  (spells_ofAccount s a).holds hk (Key.isBelow_iff.mp hl)

theorem isBelow_of_holds (hk : ofAccount s a = .ok k) (hl : s.Holds a l) : l.isBelow k = true := by
  rw [Key.isBelow_iff, (spells_ofAccount s a k).mp hk]
  exact hl

theorem ofAccount_isOk_of_holds (h : s.Holds a k) (s' : Keyspace) : ∃ l, ofAccount s' a = .ok l := by
  refine (spells_ofAccount s' a).isOk fun c hc => ?_
  simp only [List.mem_cons, List.not_mem_nil, or_false] at hc
  rcases hc with rfl | rfl
  · exact s'.isValid_name
  · exact k.valid _ (h.subset (by simp))

/-! ## All of an account -/

theorem mem_of_mapM_eq_ok {α β ε : Type} {f : α → Except ε β} {l : List α} {found : List β}
    (h : l.mapM f = .ok found) : (∀ b ∈ found, ∃ a ∈ l, f a = .ok b) ∧
      ∀ a ∈ l, ∃ b ∈ found, f a = .ok b := by
  induction l generalizing found with
  | nil =>
    obtain rfl : [] = found := Except.ok.inj h
    exact ⟨nofun, nofun⟩
  | cons a l ih =>
    rw [List.mapM_cons] at h
    cases ha : f a with
    | error e =>
      rw [ha] at h
      cases h
    | ok b =>
      cases hl : l.mapM f with
      | error e =>
        rw [ha, hl] at h
        cases h
      | ok rest =>
        rw [ha, hl] at h
        obtain rfl : b :: rest = found := Except.ok.inj h
        obtain ⟨hfound, hrest⟩ := ih hl
        refine ⟨fun b' hb => ?_, fun a' ha' => ?_⟩
        · rcases List.mem_cons.mp hb with rfl | hb
          · exact ⟨a, List.mem_cons_self, ha⟩
          · obtain ⟨a', ha', h'⟩ := hfound b' hb
            exact ⟨a', List.mem_cons_of_mem _ ha', h'⟩
        · rcases List.mem_cons.mp ha' with rfl | ha'
          · exact ⟨b, List.mem_cons_self, ha⟩
          · obtain ⟨b', hb', h'⟩ := hrest a' ha'
            exact ⟨b', List.mem_cons_of_mem _ hb', h'⟩

theorem mapM_eq_error {α β ε : Type} {f : α → Except ε β} {l : List α} {e : ε}
    (h : l.mapM f = .error e) : ∃ a ∈ l, f a = .error e := by
  induction l with
  | nil => cases h
  | cons a l ih =>
    rw [List.mapM_cons] at h
    cases ha : f a with
    | error e' =>
      rw [ha] at h
      exact ⟨a, List.mem_cons_self, ha.trans (congrArg _ (Except.error.inj h))⟩
    | ok b =>
      cases hl : l.mapM f with
      | error e' =>
        rw [ha, hl] at h
        obtain ⟨a', ha', h'⟩ := ih (hl.trans (congrArg _ (Except.error.inj h)))
        exact ⟨a', List.mem_cons_of_mem _ ha', h'⟩
      | ok rest =>
        rw [ha, hl] at h
        cases h

/-- The keys over an account are at or above just the keys that lie with it. -/
theorem isBelow_account_iff {keys : List Key} (h : account a = .ok keys) :
    (∃ k ∈ keys, l.isBelow k = true) ↔ a.Owns l := by
  obtain ⟨hkeys, hall⟩ := mem_of_mapM_eq_ok h
  constructor
  · rintro ⟨k, hk, hl⟩
    obtain ⟨s, -, hs⟩ := hkeys k hk
    exact ⟨s, holds_of_isBelow hs hl⟩
  · rintro ⟨s, hs⟩
    obtain ⟨k, hk, hs'⟩ := hall s s.mem_all
    exact ⟨k, hk, isBelow_of_holds hs' hs⟩

/-- An account without a key over it owns nothing. -/
theorem not_owns_of_account_error {e : KeyError} (h : account a = .error e) : ¬ a.Owns k := by
  rintro ⟨s, hs⟩
  obtain ⟨s', -, hs'⟩ := mapM_eq_error h
  obtain ⟨l, hl⟩ := ofAccount_isOk_of_holds hs s'
  rw [hl] at hs'
  cases hs'

end Layout

/-! ## Runs -/

section Runs
variable {p p' : ProgramId} {r r' : RunId} {t t' : Int64}

theorem ApplicationId.ext_names {id id' : ApplicationId} (ha : id.account.name = id'.account.name)
    (hb : id.name = id'.name) : id = id' := by
  obtain ⟨⟨a⟩, b⟩ := id
  obtain rfl : a = _ := ha
  obtain rfl : b = _ := hb
  rfl

theorem ProgramId.ext_names (ha : p.account.name = p'.account.name)
    (hb : p.application.name = p'.application.name) (hc : p.name = p'.name) : p = p' := by
  obtain ⟨⟨⟨a⟩, b⟩, c⟩ := p
  obtain rfl : a = _ := ha
  obtain rfl : b = _ := hb
  obtain rfl : c = _ := hc
  rfl

/-- In each keyspace an application has a key of its own. -/
theorem Layout.ofApplication_inj {s : Keyspace} {id id' : ApplicationId}
    (h : Layout.ofApplication s id = .ok k) (h' : Layout.ofApplication s id' = .ok k) :
    id = id' := by
  have hsame := (Layout.spells_ofApplication s id).unique (Layout.spells_ofApplication s id') h h'
  simp only [List.cons.injEq, true_and, and_true] at hsame
  exact ApplicationId.ext_names hsame.1 hsame.2

/-- In each keyspace a program has a key of its own. -/
theorem Layout.ofProgram_inj {s : Keyspace} (h : Layout.ofProgram s p = .ok k)
    (h' : Layout.ofProgram s p' = .ok k) : p = p' := by
  have hsame := (Layout.spells_ofProgram s p).unique (Layout.spells_ofProgram s p') h h'
  simp only [List.cons.injEq, true_and, and_true] at hsame
  exact ProgramId.ext_names hsame.1 hsame.2.1 hsame.2.2

theorem Layout.run_inj (h : Layout.run p t r = .ok k) (h' : Layout.run p' t' r' = .ok k) :
    p = p' ∧ t = t' ∧ r = r' := by
  have hsame := (Layout.spells_run p t r).unique (Layout.spells_run p' t' r') h h'
  simp only [List.cons.injEq, true_and, and_true] at hsame
  obtain ⟨ha, hb, hc, ht, hr⟩ := hsame
  exact ⟨ProgramId.ext_names ha hb hc, Layout.descending_inj.mp ht, by cases r; cases hr; rfl⟩

/-- Records of one run share a key just if they share a start time. -/
theorem Layout.run_eq_iff (h : Layout.run p t r = .ok k) (h' : Layout.run p t' r = .ok l) :
    k = l ↔ t = t' := by
  constructor
  · rintro rfl
    exact (Layout.run_inj h h').2.1
  · rintro rfl
    exact Except.ok.inj (h.symm.trans h')

theorem Layout.runIndex_inj (h : Layout.runIndex p r = .ok k) (h' : Layout.runIndex p' r' = .ok k) :
    p = p' ∧ r = r' := by
  have hsame := (Layout.spells_runIndex p r).unique (Layout.spells_runIndex p' r') h h'
  simp only [List.cons.injEq, true_and, and_true] at hsame
  obtain ⟨ha, hb, hc, hr⟩ := hsame
  exact ⟨ProgramId.ext_names ha hb hc, by cases r; cases hr; rfl⟩

/-- **The record of a run lies below the key over the runs of its own program only.** -/
theorem Layout.isBelow_runs_iff {base : Key} (h : Layout.run p t r = .ok k)
    (hbase : Layout.ofProgram .runs p' = .ok base) : k.isBelow base = true ↔ p = p' := by
  rw [(Layout.spells_run p t r).isBelow_iff (Layout.spells_ofProgram .runs p') h hbase]
  constructor
  · intro hprefix
    simp only [List.cons_prefix_cons, List.nil_prefix, and_true] at hprefix
    obtain ⟨-, ha, hb, hc⟩ := hprefix
    exact (ProgramId.ext_names ha hb hc).symm
  · rintro rfl
    exact List.prefix_append [Keyspace.runs.name, p.account.name, p.application.name, p.name] _

/-- **The arguments of a program lie below the key over those of its own application only.** -/
theorem Layout.isBelow_ofApplication_iff {base : Key} {id : ApplicationId}
    (h : Layout.arguments p = .ok k) (hbase : Layout.ofApplication .arguments id = .ok base) :
    k.isBelow base = true ↔ p.application = id := by
  rw [(Layout.spells_ofProgram .arguments p).isBelow_iff (Layout.spells_ofApplication .arguments id)
    h hbase]
  constructor
  · intro hprefix
    simp only [List.cons_prefix_cons, List.nil_prefix, and_true] at hprefix
    obtain ⟨-, ha, hb⟩ := hprefix
    exact (ApplicationId.ext_names ha hb).symm
  · rintro rfl
    exact List.prefix_append
      [Keyspace.arguments.name, p.application.account.name, p.application.name] _

theorem Layout.holds_run (h : Layout.run p t r = .ok k) : Keyspace.runs.Holds p.account k :=
  (Layout.spells_run p t r).holds h List.prefix_rfl

theorem Layout.holds_runIndex (h : Layout.runIndex p r = .ok k) :
    Keyspace.runIndex.Holds p.account k := (Layout.spells_runIndex p r).holds h List.prefix_rfl

theorem Layout.runIndex_ne_run (hk : Layout.runIndex p r = .ok k) (hl : Layout.run p' t r' = .ok l) :
    k ≠ l := by
  rintro rfl
  cases ((Layout.holds_runIndex hk).unique (Layout.holds_run hl)).1

/-- A run that has a key for its index has one for its record at any start time. -/
theorem Layout.run_isOk (h : Layout.runIndex p r = .ok k) (t : Int64) :
    ∃ l, Layout.run p t r = .ok l := by
  refine (Layout.spells_run p t r).isOk fun c hc => ?_
  have hvalid := (Layout.spells_runIndex p r).isValid h
  simp only [List.mem_cons, List.not_mem_nil, or_false] at hc hvalid
  rcases hc with rfl | rfl | rfl | rfl | rfl | rfl
  · decide
  · exact hvalid _ (.inr (.inl rfl))
  · exact hvalid _ (.inr (.inr (.inl rfl)))
  · exact hvalid _ (.inr (.inr (.inr (.inl rfl))))
  · exact Layout.isValid_descending t
  · exact hvalid _ (.inr (.inr (.inr (.inr rfl))))

/-- Whether a key is that of the index of a run or of its record, at any start time. -/
def Run.Owns (p : ProgramId) (r : RunId) (k : Key) : Prop :=
  Layout.runIndex p r = .ok k ∨ ∃ t, Layout.run p t r = .ok k

theorem Run.Owns.account (h : Run.Owns p r k) : p.account.Owns k := by
  rcases h with h | ⟨t, h⟩
  · exact ⟨.runIndex, Layout.holds_runIndex h⟩
  · exact ⟨.runs, Layout.holds_run h⟩

/-- **A key is that of one run.** -/
theorem Run.Owns.unique (h : Run.Owns p r k) (h' : Run.Owns p' r' k) : p = p' ∧ r = r' := by
  rcases h with h | ⟨t, h⟩ <;> rcases h' with h' | ⟨t', h'⟩
  · exact Layout.runIndex_inj h h'
  · cases ((Layout.holds_runIndex h).unique (Layout.holds_run h')).1
  · cases ((Layout.holds_run h).unique (Layout.holds_runIndex h')).1
  · obtain ⟨hp, -, hr⟩ := Layout.run_inj h h'
    exact ⟨hp, hr⟩

end Runs

end AppRegistry
