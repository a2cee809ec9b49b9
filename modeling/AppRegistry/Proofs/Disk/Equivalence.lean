import AppRegistry.Proofs.Disk.Opened
import AppRegistry.Proofs.Disk.Records
import AppRegistry.Proofs.Disk.Success
import AppRegistry.Proofs.Files.Written
import AppRegistry.Proofs.Json.RoundTrip
import AppRegistry.Proofs.Records.Sessions

/-!
# Records on disk are a map

A session on a store on disk sees what the same session sees on records in memory, however often the
store is closed and opened again.

Main result: `backends_equivalent`. The invariant is `Mirrors`: the files of a tidy store at rest
hold the records of a map. A transaction that stays within the limits keeps it (`Mirrors.observe`),
and so does opening the store (`Mirrors.openAt`).
-/

namespace AppRegistry.Disk

variable {root : Path} {t t' : FileTree} {m : OrderedMap Key Json} {ε α : Type}

/-- A store whose files hold the records of a map. -/
structure Mirrors (root : Path) (m : OrderedMap Key Json) (t : FileTree) : Prop where
  tidy : Stored root Tidy t
  atRest : AtRest root (contents root t)
  holds : Holds root (contents root t) m

/-- The longest file names of a key are within the limits. -/
def Fits (root : Path) (k : Key) : Prop := (stagingPath root k).InLimits

instance (root : Path) (k : Key) : Decidable (Fits root k) :=
  inferInstanceAs (Decidable (stagingPath root k).InLimits)

/-! ## What a transaction sees -/

/-- Where a map has no record there is nothing to read. -/
theorem Mirrors.recordAt_none (h : Mirrors root m t) {k : Key} (hk : Fits root k)
    (hnone : m.get? k = none) : recordAt root t k = .ok none := by
  have hcontents : contents root t k.components recordName = none := by
    refine eq_none_of_not_isFile ?_ (h.tidy.2.no_directory _ _)
    rintro ⟨b, hb⟩
    obtain ⟨k', v, -, hk', hv, -⟩ := h.holds.sound _ b hb
    rw [Key.ext hk', hnone] at hv
    cases hv
  rw [contents_record, ← recordPath_eq] at hcontents
  have hfind : t.find (recordPath root k) = .error .notFound := by
    apply FileTree.find_eq_notFound (recordPath_inLimits hk) hcontents
    intro q hq b hfile
    rcases List.prefix_concat_iff.mp hq with rfl | hq
    · rw [recordPath] at hcontents
      rw [hcontents] at hfile
      cases hfile
    · exact Tidy.free h.tidy hq b hfile
  unfold recordAt
  rw [hfind]

/-- The snapshot of the files shows the map. -/
theorem Mirrors.shows (h : Mirrors root m t) : (snapshot root t).Shows (Fits root) m where
  get k hk := by
    show recordAt root t k = _
    cases hv : m.get? k with
    | none => exact h.recordAt_none hk hv
    | some v => exact h.holds.recordAt hv
  range r := h.holds.recordsIn r

theorem Mirrors.sees (h : Mirrors root m t) :
    Overlay.Sees (Fits root) ⟨snapshot root t, ∅⟩ m m := ⟨h.shows, Changes.applyAll_empty m⟩

/-! ## What a transaction does -/

/-- A value that a record file can hold: its fields ascend by name, its numbers are integers of 64
bits, and it does not nest too deep to be read. -/
def Storable (v : Json) : Prop := v.sorted = v ∧ v.HasWords ∧ v.depth ≤ Json.depthLimit

theorem Storable.readsBack {v : Json} (h : Storable v) : ReadsBack v :=
  ⟨v, Json.readBytes?_compact h.2.1 h.2.2, h.1⟩

/-- Changes that fit are committed, and the files hold the changed map. -/
theorem Mirrors.commit {staged : Changes} (h : Mirrors root m t)
    (hlj : (journalStagingPath root).InLimits) (hstaged : staged.StaysIn (Fits root) Storable) :
    ∃ t', (commit root staged).run t = (.ok (), t') ∧
      Mirrors root (Changes.applyAll m staged.toList) t' := by
  have hfits : ∀ k v, (k, v) ∈ staged.toList → Fits root k := fun k v hkv =>
    (hstaged k v ((OrderedMap.mem_toList_iff _ _ _).mp hkv)).1
  have hstorable : ∀ k v, (k, some v) ∈ staged.toList → Storable v := fun k v hkv =>
    (hstaged k (some v) ((OrderedMap.mem_toList_iff _ _ _).mp hkv)).2 v rfl
  have hok := commit_isOk h.tidy h.atRest hlj hfits
  obtain ⟨-, ⟨hr, hsettled, hrest⟩, -⟩ := commit_run h.tidy.1 h.atRest hok
  refine ⟨_, Prod.ext hok rfl, stored_tidy_run (only_commit staged) h.tidy, hrest, ?_⟩
  have hheld := h.holds.committed (fun k v hkv => (hstorable k v hkv).readsBack)
    fun k v hkv => recordPath_inLimits (hfits k _ hkv)
  exact hheld.congr (sameRecords_of_eq fun d => (hsettled.kept d _ (by decide)).symm)

theorem transact_run (root : Path) (t : FileTree) (tx : Transaction ε α) :
    (transact ⟨root, false⟩ tx).run t = match Overlay.run ⟨snapshot root t, ∅⟩ tx with
    | (.rejected e, _) => ((.rejected e, ⟨root, false⟩), t)
    | (.panicked, _) => ((.panicked, ⟨root, true⟩), t)
    | (.done a, o) => (match ((Disk.commit root o.staged).run t).1 with
        | .error e => (.failed e, ⟨root, false⟩)
        | .ok () => (.committed a, ⟨root, false⟩), ((Disk.commit root o.staged).run t).2) := by
  unfold transact
  rw [if_neg (by simp), Script.run_bind, Script.run_see]
  rcases Overlay.run ⟨snapshot root t, ∅⟩ tx with ⟨_ | _ | _, o⟩
  · show Script.run (Disk.commit root o.staged >>= _) t = _
    rw [Script.run_bind]
    simp only
    cases ((Disk.commit root o.staged).run t).1 <;> rfl
  · rfl
  · rfl

/-- **A transaction on the files is seen as one on the map**, and the files hold the map after it.
-/
theorem Mirrors.observe {tx : Transaction ε α} (h : Mirrors root m t)
    (hlj : (journalStagingPath root).InLimits) (htx : tx.StaysIn (Fits root) Storable m)
    (hpanic : (tx.runOn m).1 ≠ .panicked) : ∃ t',
      (Store.disk ⟨root, false⟩).observe tx t =
        ((tx.observeOn m).1, .disk ⟨root, false⟩, t') ∧ Mirrors root (tx.observeOn m).2 t' := by
  have hdump : ∀ {copy t}, Mirrors root copy t →
      (snapshot root t).range (.all .root) = .ok copy.toList := fun h => by
    rw [h.shows.range, Transaction.recordsIn_all]
  -- The transaction reads and writes its overlay, and that sees what the map would show.
  have hanswers := h.sees.answers htx
  obtain ⟨hout, hsees⟩ := h.sees.run htx
  have hstaged := h.sees.run_staysIn htx Changes.staysIn_empty
  have hrun := transact_run root t tx
  unfold Store.observe Transaction.observeOn
  simp only [Store.transact, Script.run_bind, Script.run_pure, Store.snapshot, hanswers, hrun]
  generalize Overlay.run ⟨snapshot root t, ∅⟩ tx = r at hout hsees hstaged
  generalize tx.runOn m = s at hout hsees hpanic
  obtain ⟨out, o⟩ := r
  obtain ⟨out', copy⟩ := s
  obtain rfl : out = out' := hout
  cases out with
  | panicked => exact absurd rfl hpanic
  | rejected e => exact ⟨t, by simp only [hdump h], h⟩
  | done a =>
    obtain ⟨t', hcommit, hmirrors⟩ := h.commit hlj hstaged
    rw [hsees.copy_eq] at hmirrors
    exact ⟨t', by simp only [hcommit, hdump hmirrors], hmirrors⟩

/-! ## Opening the store -/

theorem Mirrors.openAt {w : WrittenPath} (h : Mirrors root m t)
    (hl : (journalPath root).InLimits)
    (hw : WrittenPath.find t w = .ok (root, .directory)) :
    ∃ t', (openAt w).run.run t = (.ok ⟨root, false⟩, t') ∧ Mirrors root m t' := by
  have hjournal : contents root t [] journalName = none :=
    eq_none_of_not_isFile h.atRest.no_journal (h.tidy.2.no_directory _ _)
  have hsettled : Settled root (contents root t) (contents root t) :=
    ⟨fun _ _ _ => rfl, fun _ _ hn hf => h.atRest.sweepable_of_leftover hn hf⟩
  obtain ⟨-, hok, hkept, -⟩ := (meets_openAt hw h.tidy.1 hl (.inl ⟨hjournal, hsettled⟩)).run
  have hopen : (Disk.openAt w).run.run t = (.ok ⟨root, false⟩, ((Disk.openAt w).run.run t).2) :=
    Prod.ext hok rfl
  refine ⟨_, hopen, ?_, (opened_of_openAt hopen).atRest, ?_⟩
  · rw [openAt_run_snd hw]
    exact stored_tidy_run only_recover h.tidy
  · exact h.holds.congr (sameRecords_of_eq fun d => (hkept d _ (by decide)).symm)

theorem mirrors_of_empty (hr : t.get? root = some .directory)
    (hempty : ∀ p, p ≠ [] → t.get? (root ++ p) = none) : Mirrors root ∅ t where
  tidy := by
    refine ⟨hr, fun d n => ?_, fun d n _ => contents_of_empty hempty d n⟩
    rw [contents_of_empty hempty]
    exact (Option.some_ne_none _).symm
  atRest := atRest_of_no_file fun d n => contents_of_empty hempty d n ▸ not_isFile_none
  holds.sound d b hb := by
    rw [contents_of_empty hempty] at hb
    cases hb
  holds.complete k v hv := by simp at hv

/-! ## Sessions -/

section Sessions
variable {w : WrittenPath} (hw : w.Names root)
  (hlj : (journalStagingPath root).InLimits)
include hw hlj

/-- A session on a store that mirrors a map sees what it sees on the map. -/
theorem Mirrors.run {session : Session ε α} (h : Mirrors root m t)
    (hsession : session.StaysIn (Fits root) Storable m) :
    session.run w (.disk ⟨root, false⟩) t = .ok (session.runOn m) := by
  -- A session is a tree of transactions, and each goes on from the map and the files that it has
  -- left.
  induction session generalizing m t with
  | finish => rfl
  | transact tx next ih =>
    obtain ⟨t', hobserve, hmirrors⟩ := h.observe hlj hsession.1 hsession.2.1
    rw [Session.run, hobserve, ih _ hmirrors hsession.2.2]
    rfl
  | reopen next ih =>
    obtain ⟨t', hopen, hmirrors⟩ := h.openAt (Path.InLimits.of_last hlj (by decide)) (hw t h.tidy.1)
    simp only [Session.run, hopen]
    exact ih hmirrors hsession

/-- **The two kinds of store cannot be told apart.** A session whose transactions do not panic, use
keys whose files are within the limits and write values that a file can hold sees the same on an
empty store in memory and on one opened at an empty directory, whenever it opens the latter again.
-/
theorem backends_equivalent (hr : t.get? root = some .directory)
    (hempty : ∀ p, p ≠ [] → t.get? (root ++ p) = none) (session : Session ε α)
    (hsession : session.StaysIn (Fits root) Storable ∅) : ∃ observations,
      session.run w (.memory .empty) t = .ok observations ∧
      ∃ d t', (openAt w).run.run t = (.ok d, t') ∧
        session.run w (.disk d) t' = .ok observations := by
  have hl : (journalPath root).InLimits := Path.InLimits.of_last hlj (by decide)
  obtain ⟨t', hopen, hmirrors'⟩ := (mirrors_of_empty hr hempty).openAt hl (hw t hr)
  exact ⟨session.runOn ∅, Session.run_memory hsession, ⟨root, false⟩, t', hopen,
    hmirrors'.run hw hlj hsession⟩

end Sessions

/-! ### Two transactions with the store opened again between them -/

/-- A tree with an empty directory. -/
def storeTree : FileTree := FileTree.empty.place ["data"] .directory

theorem get?_below_storeTree {p : Path} (hp : p ≠ []) :
    storeTree.get? (["data"] ++ p) = none := by
  rw [storeTree, FileTree.get?_place (by decide), if_neg (by simpa using hp.symm)]
  rfl

/-- A key below the root key. -/
def childKey : Key := ⟨["a"], by decide⟩

/-- A session that writes two records, opens the store again and deletes one. -/
def rootCleared : Session Unit Unit :=
  .transact (.write .root (.bool true) (.write childKey .null (.done ()))) fun _ =>
    .reopen (.transact (.delete .root fun _ => .done ()) fun _ => .finish)

theorem run_rootCleared : ∃ d t', (openAt "/data").run.run storeTree = (.ok d, t') ∧
    (rootCleared.run "/data" (.disk d) t').map (·.map Observation.dump) =
      .ok [.ok [(.root, .bool true), (childKey, .null)], .ok [(childKey, .null)]] := by
  have hstays : rootCleared.StaysIn (Fits ["data"]) Storable ∅ :=
    ⟨⟨by decide, ⟨rfl, trivial, by decide⟩, by decide, ⟨rfl, trivial, by decide⟩, trivial⟩,
      nofun, ⟨by decide, trivial⟩, nofun, trivial⟩
  obtain ⟨obs, hmemory, d, t', hopen, hdisk⟩ := backends_equivalent (t := storeTree)
    (WrittenPath.names_text (p := ["data"]) (by decide) (by decide)) (by decide) rfl
    (fun _ => get?_below_storeTree) rootCleared hstays
  refine ⟨d, t', hopen, ?_⟩
  rw [show "/data" = Path.text ["data"] by rfl, hdisk, ← hmemory]
  rfl

end AppRegistry.Disk
