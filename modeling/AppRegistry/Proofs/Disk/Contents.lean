import AppRegistry.Disk.Journal
import AppRegistry.Proofs.Files.Effect
import AppRegistry.Proofs.Files.Runs

/-!
# The contents of a store

All files of a store have names that start with a dot, and no directory of a key has such a name. So
the directories under other names are left out of the contents of a store (`Disk.contents`), and a
file call of the store changes the contents at one or two places or, when it makes or removes the
directory of a key, not at all.

`Disk.Leads` says what a script does in terms of the contents alone: where it starts, what holds
wherever it may be cut short, and where it ends. There is one rule for each kind of call, among them
`leads_write`, `leads_rename`, `leads_removeIfPresent` and `leads_prune`, and `Leads.bind` puts them
together.
-/

namespace AppRegistry.Disk

variable {root : Path} {t t' : FileTree}

instance (p : Path) : Decidable p.InLimits := by
  unfold Path.InLimits Path.HasShortNames; infer_instance

/-! ## Places -/

/-- Whether a name starts with a dot, as no component of a key does. -/
def isHidden (name : String) : Bool := name.toList.head? == some '.'

/-- The path of a name in a directory below the root. -/
def place (root dir : Path) (name : String) : Path := root ++ dir ++ [name]

theorem recordPath_eq (k : Key) : recordPath root k = place root k.components recordName := rfl

theorem stagingPath_eq (k : Key) : stagingPath root k = place root k.components stagingName := rfl

theorem backupPath_eq (k : Key) : backupPath root k = place root k.components backupName := rfl

theorem journalPath_eq : journalPath root = place root [] journalName := by
  rw [journalPath, place, List.append_nil]

theorem journalStagingPath_eq : journalStagingPath root = place root [] journalStagingName := by
  rw [journalStagingPath, place, List.append_nil]

@[simp] theorem place_inj {d d' : Path} {n n' : String} :
    place root d n = place root d' n' ↔ d = d' ∧ n = n' := by
  unfold place
  rw [List.append_assoc, List.append_assoc, List.append_cancel_left_eq]
  constructor
  · intro h
    obtain ⟨hd, hn⟩ := List.append_inj' h rfl
    exact ⟨hd, (List.cons.inj hn).1⟩
  · rintro ⟨rfl, rfl⟩
    rfl

theorem place_ne_root (d : Path) (n : String) : place root d n ≠ root := by
  intro h
  have := congrArg List.length h
  simp only [place, List.length_append, List.length_cons, List.length_nil] at this
  omega

theorem dropLast_place (d : Path) (n : String) : (place root d n).dropLast = root ++ d :=
  List.dropLast_concat

theorem not_isHidden_of_valid {c : String} (h : Component.IsValid c) : isHidden c = false := by
  unfold isHidden
  exact beq_eq_false_iff_ne.mpr h.2.1

/-- No file of a store stands on the way to the directory of a key. -/
theorem place_hidden_ne {d : Path} {n : String} (hn : isHidden n = true) {k : Key} {p : Path}
    (hp : p <+: directory root k) : place root d n ≠ p := by
  rintro rfl
  unfold place directory at hp
  rw [List.append_assoc, List.prefix_append_right_inj] at hp
  have hmem : n ∈ k.components := hp.subset (by simp)
  rw [not_isHidden_of_valid (k.valid n hmem)] at hn
  cases hn

/-- The way to the directory of a key leads through the root and then under names that are not
hidden. -/
theorem prefix_directory {k : Key} {q : Path} (hq : q <+: directory root k) :
    q <+: root ∨ ∃ d n, isHidden n = false ∧ q = place root d n := by
  by_cases hroot : q <+: root
  · exact .inl hroot
  · obtain ⟨p, rfl⟩ :=
      (List.prefix_or_prefix_of_prefix hq (List.prefix_append root k.components)).resolve_left hroot
    have hp : p ≠ [] := by
      rintro rfl
      exact hroot (by simp)
    rw [directory, List.prefix_append_right_inj] at hq
    refine .inr ⟨p.dropLast, p.getLast hp,
      not_isHidden_of_valid (k.valid _ (hq.subset (List.getLast_mem hp))), ?_⟩
    rw [place, List.append_assoc, List.dropLast_concat_getLast hp]

/-! ## Contents -/

/-- What stands below a root, by directory and name, without the directories that a key may name. -/
abbrev Contents := Path → String → Option Entry

/-- Whether a file stands somewhere. -/
def IsFile (e : Option Entry) : Prop := ∃ b, e = some (.file b)

@[simp] theorem isFile_file (b : ByteArray) : IsFile (some (.file b)) := ⟨b, rfl⟩

@[simp] theorem not_isFile_none : ¬ IsFile none := by
  rintro ⟨b, hb⟩
  cases hb

@[simp] theorem not_isFile_directory : ¬ IsFile (some .directory) := by
  rintro ⟨b, hb⟩
  cases hb

theorem eq_none_of_not_isFile {e : Option Entry} (hf : ¬ IsFile e) (hd : e ≠ some .directory) :
    e = none := by
  rcases e with _ | _ | b
  · rfl
  · exact absurd rfl hd
  · exact absurd (isFile_file b) hf

instance : DecidablePred IsFile
  | none => isFalse not_isFile_none
  | some .directory => isFalse not_isFile_directory
  | some (.file b) => isTrue (isFile_file b)

/-- The contents of the store at `root`. -/
def contents (root : Path) (t : FileTree) : Contents := fun d n =>
  if isHidden n then t.get? (place root d n)
  else (t.get? (place root d n)).filter (· ≠ .directory)

theorem contents_of_hidden {d : Path} {n : String} (hn : isHidden n = true) :
    contents root t d n = t.get? (place root d n) := if_pos hn

/-- Under the names that a key may have, files alone count. -/
theorem contents_of_plain {d : Path} {n : String} {e : Entry} (hn : ¬ isHidden n = true) :
    contents root t d n = some e ↔ ∃ b, e = .file b ∧ t.get? (place root d n) = some (.file b) := by
  unfold contents
  rw [if_neg hn, Option.filter_eq_some_iff]
  cases e <;> simp

/-- Only a directory under a name that a key may have does not count. -/
theorem eq_directory_of_contents {d : Path} {n : String} (hc : contents root t d n = none)
    (hn : t.get? (place root d n) ≠ none) : t.get? (place root d n) = some .directory := by
  by_cases hhidden : isHidden n = true
  · exact absurd ((contents_of_hidden hhidden).symm.trans hc) hn
  · unfold contents at hc
    rw [if_neg hhidden] at hc
    cases he : t.get? (place root d n) with
    | none => exact absurd he hn
    | some e => simpa [he, Option.filter] using hc

theorem isFile_contents_iff {d : Path} {n : String} :
    IsFile (contents root t d n) ↔ IsFile (t.get? (place root d n)) := by
  by_cases hn : isHidden n = true
  · rw [contents_of_hidden hn]
  · unfold IsFile
    simp only [contents_of_plain hn]
    simp

namespace Contents

variable (c : Contents) (d : Path) (n m : String) (e : Option Entry)

/-- The contents with another entry at one place. -/
def set : Contents := fun d' n' => if d = d' ∧ n = n' then e else c d' n'

/-- The contents after an entry got another name. -/
def move : Contents := (c.set d n none).set d m (c d n)

/-- The contents without the file at one place, if there is one. -/
def drop : Contents := if IsFile (c d n) then c.set d n none else c

/-- The contents without the file at one place, if there is one and it can be reached. -/
def clear (root : Path) : Contents := if (place root d n).InLimits then c.drop d n else c

@[simp] theorem set_self : c.set d n e d n = e := if_pos ⟨rfl, rfl⟩

@[simp] theorem move_target : c.move d n m d m = c d n := set_self _ _ _ _

theorem not_isFile_drop : ¬ IsFile (c.drop d n d n) := by
  unfold drop
  split
  · rw [set_self]
    exact not_isFile_none
  · next h => exact h

variable {c d n} in
theorem drop_of_not_isFile (h : ¬ IsFile (c d n)) : c.drop d n = c := if_neg h

variable {c d n} in
theorem clear_eq_drop (h : IsFile (c d n) → (place root d n).InLimits) :
    c.clear d n root = c.drop d n := by
  by_cases hl : (place root d n).InLimits
  · exact if_pos hl
  · rw [clear, if_neg hl, drop_of_not_isFile fun hf => hl (h hf)]

variable {d n}

theorem set_of_ne {d' : Path} {n' : String} (h : d = d' → n ≠ n') : c.set d n e d' n' = c d' n' :=
  if_neg fun hdn => h hdn.1 hdn.2

theorem drop_of_ne {d' : Path} {n' : String} (h : d = d' → n ≠ n') :
    c.drop d n d' n' = c d' n' := by
  unfold drop
  split
  · exact set_of_ne c none h
  · rfl

theorem clear_of_ne {d' : Path} {n' : String} (h : d = d' → n ≠ n') :
    c.clear d n root d' n' = c d' n' := by
  unfold clear
  split
  · exact drop_of_ne c h
  · rfl

variable {m}

theorem move_source (h : n ≠ m) : c.move d n m d n = none := by
  unfold move
  rw [set_of_ne _ _ fun _ => h.symm, set_self]

theorem move_of_ne {d' : Path} {n' : String} (h : d = d' → n ≠ n' ∧ m ≠ n') :
    c.move d n m d' n' = c d' n' := by
  unfold move
  rw [set_of_ne _ _ fun hd => (h hd).2, set_of_ne _ _ fun hd => (h hd).1]

end Contents

theorem contents_eq_set {d : Path} {n : String} {e : Option Entry} (hn : isHidden n = true)
    (h : ∀ r, t'.get? r = if place root d n = r then e else t.get? r) :
    contents root t' = (contents root t).set d n e := by
  funext d' n'
  unfold contents Contents.set
  simp only [h, place_inj]
  by_cases hdn : d = d' ∧ n = n'
  · obtain ⟨rfl, rfl⟩ := hdn
    simp [hn]
  · simp only [if_neg hdn]

/-! ## Scripts over contents -/

/-- The root of the store is a directory and its contents satisfy `P`. -/
def Stored (root : Path) (P : Contents → Prop) (t : FileTree) : Prop :=
  t.get? root = some .directory ∧ P (contents root t)

theorem Stored.imp {P Q : Contents → Prop} (h : Stored root P t) (hPQ : ∀ c, P c → Q c) :
    Stored root Q t := ⟨h.1, hPQ _ h.2⟩

variable {α β : Type}

/-- From the contents `c`, the script keeps `inv` wherever it may be cut short and ends in `post`.
-/
def Leads (root : Path) (F : Prop) (inv : Contents → Prop) (c : Contents) (s : Script α)
    (post : α → Contents → Prop) : Prop :=
  ∀ t, Stored root (· = c) t → s.Meets F (Stored root inv) (fun a => Stored root (post a)) t

variable {F : Prop} {inv : Contents → Prop} {c : Contents} {s : Script α}
  {post : α → Contents → Prop}

theorem Leads.meets (h : Leads root F inv (contents root t) s post)
    (ht : t.get? root = some .directory) :
    s.Meets F (Stored root inv) (fun a => Stored root (post a)) t := h t ⟨ht, rfl⟩

theorem Leads.mono {inv' : Contents → Prop} {post' : α → Contents → Prop} {G : Prop}
    (h : Leads root F inv c s post) (hG : G → F) (hinv : ∀ c, inv c → inv' c)
    (hpost : ∀ a c, post a c → post' a c) : Leads root G inv' c s post' := fun t ht =>
  (h t ht).mono hG (fun _ h => h.imp hinv) fun a _ h => h.imp (hpost a)

theorem Leads.imp {post' : α → Contents → Prop} (h : Leads root F inv c s post)
    (hpost : ∀ a c, post a c → post' a c) : Leads root F inv c s post' :=
  h.mono id (fun _ => id) hpost

/-- Where a script ends, its invariant holds. -/
theorem Leads.withInv {inv' : Contents → Prop} {post' : α → Contents → Prop}
    (h : Leads root F inv c s post) (hinv : ∀ c, inv c → inv' c)
    (hpost : ∀ a c, inv c → post a c → post' a c) : Leads root F inv' c s post' := fun t ht =>
  ((h t ht).and_inv).mono id (fun _ h => h.imp hinv) fun a _ h => ⟨h.1.1, hpost a _ h.1.2 h.2.2⟩

theorem Leads.bind {f : α → Script β} {goal : β → Contents → Prop}
    (h : Leads root F inv c s fun a c' => inv c' → Leads root F inv c' (f a) goal) :
    Leads root F inv c (s >>= f) goal := fun t ht =>
  Script.Meets.bind ((h t ht).post_mono fun _ t' ha hinv => ha.2 hinv.2 t' ⟨ha.1, rfl⟩)

theorem leads_pure {a : α} (h : inv c) (hpost : post a c) : Leads root F inv c (pure a) post := by
  rintro t ⟨hr, rfl⟩
  exact ⟨⟨hr, h⟩, hr, hpost⟩

theorem leads_see {f : FileTree → α} (h : inv c)
    (hpost : ∀ t, t.get? root = some .directory → contents root t = c → post (f t) c) :
    Leads root F inv c (Script.see f) post := by
  rintro t ⟨hr, rfl⟩
  exact ⟨⟨hr, h⟩, hr, hpost t hr rfl⟩

theorem leads_map {f : α → β} {goal : β → Contents → Prop}
    (h : Leads root F inv c s fun a => goal (f a)) : Leads root F inv c (f <$> s) goal := by
  rw [map_eq_pure_bind]
  exact (h.imp fun a c' ha hinv => leads_pure hinv ha).bind

theorem leads_discard {goal : Unit → Contents → Prop} (h : Leads root F inv c s fun _ => goal ()) :
    Leads root F inv c (discard s) goal := leads_map h

/-! ## Steps that can fail -/

theorem leads_bind_task {x : Task α} {f : α → Task β}
    {goal : Except StorageError β → Contents → Prop}
    (h : Leads root F inv c x.run fun
      | .ok a, c' => inv c' → Leads root F inv c' (f a).run goal
      | .error e, c' => goal (.error e) c') : Leads root F inv c (x >>= f).run goal := by
  rw [ExceptT.run_bind]
  refine (h.imp fun r c' hr => ?_).bind
  cases r with
  | ok a => exact hr
  | error e => exact fun hinv => leads_pure hinv hr

theorem leads_pure_task {a : α} {goal : Except StorageError α → Contents → Prop} (h : inv c)
    (hgoal : goal (.ok a) c) : Leads root F inv c (pure a : Task α).run goal := leads_pure h hgoal

theorem leads_throw {e : StorageError} {goal : Except StorageError α → Contents → Prop} (h : inv c)
    (hgoal : goal (.error e) c) : Leads root F inv c (throw e : Task α).run goal :=
  leads_pure h hgoal

theorem leads_lift {goal : Except StorageError α → Contents → Prop}
    (h : Leads root F inv c s fun a => goal (.ok a)) :
    Leads root F inv c (liftM s : Task α).run goal := leads_map h

theorem leads_step {about : Path} {s : Script (Except FileError Unit)}
    {goal : Except StorageError Unit → Contents → Prop}
    (h : Leads root F inv c s fun
      | .ok (), c' => goal (.ok ()) c'
      | .error e, c' => goal (.error (.io (Path.text about) e)) c') :
    Leads root F inv c (step about s).run goal := by
  refine (h.imp fun r c' hr => ?_).bind
  cases r with
  | ok u => exact fun hinv => leads_pure hinv hr
  | error e => exact fun hinv => leads_pure hinv hr

/-! ## Calls on files -/

theorem leads_make {c' : FileCall} {post : Except FileError Unit → Contents → Prop} (h : inv c)
    (hrefused : ¬ (∀ p ∈ c'.paths, p.fits = true) → post (.error .nameTooLong) c)
    (hcall : (∀ p ∈ c'.paths, p.fits = true) → Leads root F inv c (Script.attempt c') post) :
    Leads root F inv c (Script.make c') post := by
  unfold Script.make
  split
  · next hf => exact hcall (List.all_eq_true.mp hf)
  · next hf => exact leads_pure h (hrefused fun h => hf (List.all_eq_true.mpr h))

theorem stored_of_write {d : Path} {n : String} {b : ByteArray} (hn : isHidden n = true)
    (hr : t.get? root = some .directory) (h : t.run (.write (place root d n) b) = .ok t') :
    Stored root (· = (contents root t).set d n (some (.file b))) t' := by
  obtain ⟨-, -, hget⟩ := FileTree.get?_of_write h
  refine ⟨?_, contents_eq_set hn hget⟩
  rw [hget, if_neg (place_ne_root d n)]
  exact hr

theorem stored_of_removeFile {d : Path} {n : String} (hn : isHidden n = true)
    (hr : t.get? root = some .directory) (h : t.run (.removeFile (place root d n)) = .ok t') :
    Stored root (· = (contents root t).set d n none) t' := by
  obtain ⟨-, -, hget⟩ := FileTree.get?_of_removeFile h
  refine ⟨?_, contents_eq_set hn hget⟩
  rw [hget, if_neg (place_ne_root d n)]
  exact hr

theorem stored_of_rename {d : Path} {n m : String} {b : ByteArray} (hn : isHidden n = true)
    (hm : isHidden m = true) (hnm : n ≠ m) (hr : t.get? root = some .directory)
    (hfile : t.get? (place root d n) = some (.file b))
    (h : t.run (.rename (place root d n) (place root d m)) = .ok t') :
    Stored root (· = (contents root t).move d n m) t' := by
  obtain ⟨-, -, hget⟩ := FileTree.get?_of_rename h hfile (by simp [hnm])
  refine ⟨?_, ?_⟩
  · rw [hget, if_neg (place_ne_root d m), if_neg (place_ne_root d n)]
    exact hr
  · rw [Contents.move, contents_of_hidden hn, hfile]
    funext d' n'
    unfold contents Contents.set
    simp only [hget, place_inj]
    by_cases hdm : d = d' ∧ m = n'
    · obtain ⟨rfl, rfl⟩ := hdm
      simp [hm]
    · simp only [if_neg hdm]
      by_cases hdn : d = d' ∧ n = n'
      · obtain ⟨rfl, rfl⟩ := hdn
        simp [hn]
      · simp only [if_neg hdn]

/-- A write that goes wrong may leave any bytes in the file. -/
theorem leads_write {d : Path} {n : String} {b : ByteArray}
    {post : Except FileError Unit → Contents → Prop} (hn : isHidden n = true) (h : inv c)
    (hinv : ∀ b', (place root d n).InLimits → inv (c.set d n (some (.file b'))))
    (hok : (place root d n).InLimits → post (.ok ()) (c.set d n (some (.file b))))
    (htorn : ∀ e b', (place root d n).InLimits → post (.error e) (c.set d n (some (.file b'))))
    (herr : ∀ e, post (.error e) c) :
    Leads root F inv c (Script.make (.write (place root d n) b)) post := by
  refine leads_make h (fun _ => herr _) fun hfits => ?_
  rintro t ⟨hr, rfl⟩
  have hwrite : ∀ {b' t'}, t.run (.write (place root d n) b') = .ok t' →
      (place root d n).InLimits ∧ t'.get? root = some .directory ∧
        contents root t' = (contents root t).set d n (some (.file b')) := fun hrun =>
    ⟨⟨hfits _ (by simp [FileCall.paths]), (FileTree.get?_of_write hrun).1⟩,
      stored_of_write hn hr hrun⟩
  -- A kill in the middle leaves other bytes than a finished write, in the same place.
  refine ⟨⟨hr, h⟩, fun p b₀ b' t' hc hrun => ?_, fun r t' ha => ?_⟩
  · cases hc
    obtain ⟨hl, hr', hc'⟩ := hwrite hrun
    exact ⟨hr', hc' ▸ hinv b' hl⟩
  · cases ha with
    | made hrun =>
      obtain ⟨hl, hr', hc'⟩ := hwrite hrun
      exact ⟨⟨hr', hc' ▸ hinv b hl⟩, hr', hc' ▸ hok hl⟩
    | refused hrun => exact ⟨⟨hr, h⟩, hr, herr _⟩
    | struck hF he => exact ⟨⟨hr, h⟩, hr, herr _⟩
    | torn hF he hrun =>
      obtain ⟨hl, hr', hc'⟩ := hwrite hrun
      exact ⟨⟨hr', hc' ▸ hinv _ hl⟩, hr', hc' ▸ htorn _ _ hl⟩

/-- A file gets another name in its directory. Without faults that fails only for the limits or for
a directory that stands in the way. -/
theorem leads_rename {d : Path} {n m : String} {post : Except FileError Unit → Contents → Prop}
    (hn : isHidden n = true) (hm : isHidden m = true) (hnm : n ≠ m) (hfile : IsFile (c d n))
    (h : inv c)
    (hok : (place root d m).InLimits → c d m ≠ some .directory →
      inv (c.move d n m) ∧ post (.ok ()) (c.move d n m))
    (herr : ∀ e, (¬ F → (place root d n).InLimits → (place root d m).InLimits →
      c d m = some .directory) → post (.error e) c) :
    Leads root F inv c (Script.make (.rename (place root d n) (place root d m))) post := by
  refine leads_make h (fun hf => herr _ fun _ hln hlm => ?_) fun hfits => ?_
  · exact absurd (by simp [FileCall.paths, hln.1, hlm.1]) hf
  rintro t ⟨hr, rfl⟩
  obtain ⟨b, hb⟩ := hfile
  have hsource : t.get? (place root d n) = some (.file b) := by rwa [contents_of_hidden hn] at hb
  have hfm : (place root d m).fits = true := hfits _ (by simp [FileCall.paths])
  refine ⟨⟨hr, h⟩, (by rintro _ _ _ _ ⟨⟩), fun r t' ha => ?_⟩
  cases ha with
  | made hrun =>
    obtain ⟨hs, htarget, -⟩ := FileTree.get?_of_rename hrun hsource (by simp [hnm])
    obtain ⟨hr', hc'⟩ := stored_of_rename hn hm hnm hr hsource hrun
    obtain ⟨hinv, hpost⟩ := hok ⟨hfm, hs⟩ (by rwa [contents_of_hidden hm])
    exact ⟨⟨hr', hc' ▸ hinv⟩, hr', hc' ▸ hpost⟩
  | refused hrun =>
    -- The source is a file and its directory is there, so only the target can be in the way.
    refine ⟨⟨hr, h⟩, hr, herr _ fun _ hln hlm => ?_⟩
    rw [contents_of_hidden hm]
    apply Classical.byContradiction
    intro htarget
    have hparent : t.get? (place root d m).dropLast = some .directory := by
      rw [dropLast_place, ← dropLast_place d n]
      exact FileTree.get?_dropLast hsource (by simp [place])
    obtain ⟨t', ht'⟩ := FileTree.rename_isOk hln.2 hsource hlm.2 htarget hparent
    rw [ht'] at hrun
    cases hrun
  | struck hF he => exact ⟨⟨hr, h⟩, hr, herr _ fun hnF => absurd hF hnF⟩

/-- The answer to a removal, for which a missing file is as good as a removed one. -/
def orMissing : Except FileError Unit → Except FileError Unit
  | .error .notFound => .ok ()
  | r => r

theorem orMissing_of_ne {e : FileError} (he : e ≠ .notFound) : orMissing (.error e) = .error e := by
  cases e <;> first | rfl | exact absurd rfl he

theorem removeIfPresent_eq (p : Path) :
    Script.removeIfPresent p = orMissing <$> Script.make (.removeFile p) := by
  rw [map_eq_pure_bind, Script.removeIfPresent]
  refine congrArg _ (funext fun r => ?_)
  cases r with
  | ok u => rfl
  | error e => cases e <;> rfl

/-- A file is removed, or there was none. Without faults that fails only for the limits, for a
directory in its place, and for the way there. -/
theorem leads_removeIfPresent {d : Path} {n : String}
    {post : Except FileError Unit → Contents → Prop}
    (hn : isHidden n = true) (h : inv c)
    (hfile : (place root d n).InLimits → IsFile (c d n) →
      inv (c.set d n none) ∧ post (.ok ()) (c.set d n none))
    (hnone : c d n = none → post (.ok ()) c)
    (herr : ∀ e, (¬ F → (place root d n).InLimits → ¬ IsFile (c d n) ∧ (d = [] → c d n ≠ none)) →
      post (.error e) c) :
    Leads root F inv c (Script.removeIfPresent (place root d n)) post := by
  rw [removeIfPresent_eq]
  refine leads_map (leads_make h (fun hf => herr _ fun _ hl => ?_) fun hfits => ?_)
  · exact absurd (by simp [FileCall.paths, hl.1]) hf
  have hne : ∀ e, e ≠ .notFound → (¬ F → (place root d n).InLimits → ¬ IsFile (c d n) ∧
      (d = [] → c d n ≠ none)) → post (orMissing (.error e)) c := fun e he hcond => by
    rw [orMissing_of_ne he]
    exact herr e hcond
  rintro t ⟨hr, rfl⟩
  refine ⟨⟨hr, h⟩, (by rintro _ _ _ _ ⟨⟩), fun r t' ha => ?_⟩
  cases ha with
  | made hrun =>
    obtain ⟨hshort, ⟨b, hb⟩, -⟩ := FileTree.get?_of_removeFile hrun
    obtain ⟨hr', hc'⟩ := stored_of_removeFile hn hr hrun
    obtain ⟨hinv, hpost⟩ := hfile ⟨hfits _ (by simp [FileCall.paths]), hshort⟩
      ⟨b, by rwa [contents_of_hidden hn]⟩
    exact ⟨⟨hr', hc' ▸ hinv⟩, hr', hc' ▸ hpost⟩
  | @refused _ e hrun =>
    refine ⟨⟨hr, h⟩, hr, ?_⟩
    by_cases he : e = .notFound
    · subst he
      refine hnone ?_
      rw [contents_of_hidden hn]
      exact FileTree.get?_of_removeFile_notFound hrun
    · refine hne e he fun _ hl => ⟨?_, ?_⟩
      · rintro ⟨b, hb⟩
        rw [contents_of_hidden hn] at hb
        obtain ⟨t', ht'⟩ := FileTree.removeFile_isOk hl.2 hb
        rw [ht'] at hrun
        cases hrun
      · rintro rfl hnil
        rw [contents_of_hidden hn] at hnil
        have hparent : t.get? (place root [] n).dropLast = some .directory := by
          rw [dropLast_place, List.append_nil]
          exact hr
        rw [FileTree.removeFile_notFound hl.2 hnil hparent] at hrun
        exact he (Except.error.inj hrun).symm
  | struck hF he => exact ⟨⟨hr, h⟩, hr, hne _ he fun hnF => absurd hF hnF⟩

/-- Without faults a file is gone in the end if it can be reached. -/
theorem leads_clear {d : Path} {n : String} {post : Unit → Contents → Prop} (hn : isHidden n = true)
    (h : inv c) (h' : inv (c.clear d n root)) (hpost : post () (c.clear d n root)) :
    Leads root False inv c (discard (Script.removeIfPresent (place root d n))) post := by
  have hmissing : ¬ IsFile (c d n) → c.clear d n root = c := fun hf => by
    rw [Contents.clear_eq_drop fun hfile => absurd hfile hf, Contents.drop_of_not_isFile hf]
  refine leads_discard (leads_removeIfPresent hn h (fun hl hf => ?_) (fun hf => ?_) fun e he => ?_)
  · rw [Contents.clear, if_pos hl, Contents.drop, if_pos hf] at h' hpost
    exact ⟨h', hpost⟩
  · rwa [hmissing (hf ▸ not_isFile_none)] at hpost
  · by_cases hl : (place root d n).InLimits
    · rwa [hmissing (he id hl).1] at hpost
    · rwa [Contents.clear, if_neg hl] at hpost

/-- Without faults a file whose path is in the limits is gone in the end. -/
theorem leads_drop {d : Path} {n : String} {post : Unit → Contents → Prop} (hn : isHidden n = true)
    (hl : IsFile (c d n) → (place root d n).InLimits) (h : inv c) (h' : inv (c.drop d n))
    (hpost : post () (c.drop d n)) :
    Leads root False inv c (discard (Script.removeIfPresent (place root d n))) post := by
  rw [← Contents.clear_eq_drop hl] at h' hpost
  exact leads_clear hn h h' hpost

/-! ## Calls on directories -/

/-- A call that makes or removes a directory on the way to a key, but not the root. -/
def OnDirectories (root : Path) : FileCall → Prop
  | .createDirectory p => ∃ k, p <+: directory root k
  | .removeDirectory p => p ≠ root ∧ ∃ k, p <+: directory root k
  | _ => False

/-- A change that takes no file away and makes no file, at no place of a hidden name, leaves the
contents as they are. -/
theorem contents_eq_of_get? {p : Path} {x : Option Entry} (hp : ¬ IsFile (t.get? p))
    (hx : ¬ IsFile x) (hplace : ∀ d n, isHidden n = true → place root d n ≠ p)
    (hget : ∀ q, t'.get? q = if p = q then x else t.get? q) :
    contents root t' = contents root t := by
  funext d n
  by_cases hn : isHidden n = true
  · rw [contents_of_hidden hn, contents_of_hidden hn, hget, if_neg (hplace d n hn).symm]
  · apply Option.ext
    intro e
    rw [contents_of_plain hn, contents_of_plain hn]
    refine exists_congr fun b => and_congr_right fun _ => ?_
    rw [hget]
    split
    · next hpq => exact ⟨fun h => absurd ⟨b, h⟩ hx, fun h => absurd ⟨b, h⟩ (hpq ▸ hp)⟩
    · rfl

theorem stored_of_onDirectories {P : Contents → Prop} {c : FileCall} {r : Except FileError Unit}
    (hc : OnDirectories root c) (ht : Stored root P t) (ha : t.Answers F c r t') :
    Stored root P t' := by
  cases ha with
  | refused => exact ht
  | struck => exact ht
  | torn => exact hc.elim
  | made hrun =>
    cases c with
    | createDirectory p =>
      obtain ⟨k, hp⟩ := hc
      obtain ⟨hnone, hget⟩ := FileTree.get?_of_createDirectory hrun
      refine ⟨?_, contents_eq_of_get? (hnone ▸ not_isFile_none) not_isFile_directory
        (fun _ _ hn => place_hidden_ne hn hp) hget ▸ ht.2⟩
      rw [hget]
      split
      · rfl
      · exact ht.1
    | removeDirectory p =>
      obtain ⟨hpr, k, hp⟩ := hc
      obtain ⟨-, hdir, -, hget⟩ := FileTree.get?_of_removeDirectory hrun
      refine ⟨?_, contents_eq_of_get? (hdir ▸ not_isFile_directory) not_isFile_none
        (fun _ _ hn => place_hidden_ne hn hp) hget ▸ ht.2⟩
      rw [hget, if_neg hpr]
      exact ht.1
    | write => exact hc.elim
    | rename => exact hc.elim
    | removeFile => exact hc.elim

/-- Work on the directories of keys leaves the contents as they are. -/
theorem leads_of_onDirectories {s : Script α} {post : α → Contents → Prop}
    (hs : s.Only (OnDirectories root)) (h : inv c) (hpost : ∀ a, post a c) :
    Leads root F inv c s post := fun _ ht =>
  (hs.meets (F := F) (fun _ _ _ _ hc hI ha => stored_of_onDirectories hc hI ha)
    (fun _ _ _ _ _ hc _ _ => hc.elim) ht).mono id
    (fun _ h' => h'.imp fun _ hc => hc ▸ h) fun a _ h' => h'.imp fun _ hc => hc ▸ hpost a

theorem only_createDirectories (k : Key) :
    (Script.createDirectories (directory root k)).Only (OnDirectories root) := by
  refine Script.only_createFrom fun d hd => Script.only_make ⟨k, ?_⟩
  obtain ⟨i, -, rfl⟩ := List.mem_map.mp hd
  exact List.take_prefix _ _

/-- The directories from that of a key up to the root, without the root. -/
theorem mem_keyDirectories_iff {k : Key} {d : Path} :
    d ∈ keyDirectories root k ↔ ∃ q, q ≠ [] ∧ q <+: k.components ∧ d = root ++ q := by
  unfold keyDirectories
  rw [List.mem_map]
  constructor
  · rintro ⟨i, hi, rfl⟩
    have hi := List.mem_range.mp hi
    refine ⟨_, fun hnil => ?_, List.take_prefix _ _, rfl⟩
    have hlen := congrArg List.length hnil
    simp only [List.length_take, List.length_nil, Key.length] at hlen hi
    omega
  · rintro ⟨q, hq, hprefix, rfl⟩
    have hlen : q.length ≠ 0 := by simpa using hq
    have hle := hprefix.length_le
    refine ⟨k.length - q.length, List.mem_range.mpr ?_, ?_⟩ <;> unfold Key.length
    · omega
    · rw [show k.components.length - (k.components.length - q.length) = q.length by omega,
        ← List.prefix_iff_eq_take.mp hprefix]

theorem only_pruneEach {P : FileCall → Prop} {l : List Path}
    (h : ∀ d ∈ l, P (.removeDirectory d)) : (pruneEach l).Only P := by
  induction l with
  | nil => exact Script.only_pure _
  | cons d l ih =>
    have ih := ih fun d hd => h d (List.mem_cons_of_mem _ hd)
    unfold pruneEach
    apply (Script.only_make (h d List.mem_cons_self)).bind
    intro r
    split
    · exact ih
    · exact ih
    · exact Script.only_pure _

theorem only_prune (k : Key) : (prune root k).Only (OnDirectories root) := by
  refine only_pruneEach fun d hd => ?_
  obtain ⟨q, hq, hprefix, rfl⟩ := mem_keyDirectories_iff.mp hd
  exact ⟨by simpa using hq, k, (List.prefix_append_right_inj root).mpr hprefix⟩

theorem leads_createDirectories {k : Key} {post : Except FileError Unit → Contents → Prop}
    (h : inv c) (hpost : ∀ r, post r c) :
    Leads root F inv c (Script.createDirectories (directory root k)) post :=
  leads_of_onDirectories (only_createDirectories k) h hpost

theorem leads_prune {k : Key} {post : Unit → Contents → Prop} (h : inv c) (hpost : post () c) :
    Leads root F inv c (prune root k) post :=
  leads_of_onDirectories (only_prune k) h fun _ => hpost

/-! ## What a script sees -/

theorem isFile_place_iff {d : Path} {n : String} (hn : isHidden n = true) :
    t.isFile (place root d n) = true ↔
      (place root d n).InLimits ∧ IsFile (contents root t d n) := by
  rw [FileTree.isFile_iff, contents_of_hidden hn]
  rfl

end AppRegistry.Disk
