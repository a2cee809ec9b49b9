import AppRegistry.Proofs.Registry.Deployments
import AppRegistry.Proofs.Registry.Removals
import AppRegistry.Proofs.Registry.Sequences

/-!
# The catalog of an account

The streams and datasets of an account belong to no single application. What a deployment declares
is added to the catalog in place of what had the same names, and only the removal of the account takes
anything away: `Catalog.since` is the list of all that was declared since then, and the catalog is
what that list comes to when the last entry of a name counts.

Main result: `Registry.account_catalog`, for streams and for datasets, in every reachable state of a
registry whose loader has applied all that was committed.

Both catalogs are one definition (`Catalog`), with the keyspace, the entries of a specification and
their names as parameters. The invariant is `Catalog.Tracks`.
-/

namespace AppRegistry

open RegistryTransaction

variable {δ : Type} {m m' : OrderedMap Key Json} {k : Key} {past : List (Operation × Answer)}
  {a : AccountId} {name : String}

/-! ## Catalogs -/

/-- A catalog of an account, with the entries that a specification declares for it. -/
structure Catalog (δ : Type) where
  keyspace : Keyspace
  declared : Specification → List δ
  name : δ → String
  is_catalog : keyspace = .streams ∨ keyspace = .datasets

namespace Catalog

/-- The streams of an account. -/
def streams : Catalog StreamDeclaration := ⟨.streams, (·.streams.values), (·.name), .inl rfl⟩

/-- The datasets of an account. -/
def datasets : Catalog DatasetDeclaration := ⟨.datasets, (·.datasets.values), (·.name), .inr rfl⟩

variable (c : Catalog δ)

theorem keyspace_ne : c.keyspace ≠ .applications := by
  rcases c.is_catalog with h | h <;> rw [h] <;> decide

/-- The key of an entry. -/
def key (a : AccountId) (name : String) : Except KeyError Key :=
  Layout.ofApplication c.keyspace (a.application name)

/-- The last of some entries with a name. -/
def last (name : String) (l : List δ) : Option δ := (l.filter (c.name · = name)).getLast?

/-- What becomes of what was declared with one operation and its answer. -/
def follow (a : AccountId) (l : List δ) : Operation × Answer → List δ
  | (.addApplication id s _, .reply _) => if id.account = a then l ++ c.declared s else l
  | (.removeAccount b, .reply _) => if b = a then [] else l
  | _ => l

/-- What deployments for an account declared since all of it was last removed, the latest last. -/
def since (a : AccountId) (past : List (Operation × Answer)) : List δ := past.foldl (c.follow a) []

variable {c}

theorem since_concat (e : Operation × Answer) :
    c.since a (past ++ [e]) = c.follow a (c.since a past) e := by
  rw [since, List.foldl_append]
  rfl

theorem mem_follow_iff {l : List δ} {e : Operation × Answer} {d : δ} : d ∈ c.follow a l e ↔
    (∃ id s archive reply, e = (.addApplication id s archive, .reply reply) ∧ id.account = a ∧
      d ∈ c.declared s) ∨ d ∈ l ∧ ∀ reply, e ≠ (.removeAccount a, .reply reply) := by
  obtain ⟨op, answer⟩ := e
  cases answer with
  | reply r =>
    cases op with
    | addApplication id s archive =>
      simp only [follow]
      split
      · next hid => simp [hid, or_comm]
      · next hid => simp [hid]
    | removeAccount b =>
      simp only [follow]
      split
      · next hb => simp [hb]
      · next hb => simp [hb]
    | _ => simp [follow]
  | _ => simp [follow]

theorem last_append (name : String) (l l' : List δ) :
    c.last name (l ++ l') = (c.last name l').or (c.last name l) := by
  rw [last, List.filter_append, List.getLast?_append]
  rfl

theorem isSome_last_iff {l : List δ} : (c.last name l).isSome ↔ name ∈ l.map c.name := by
  rw [last, List.getLast?_isSome, Ne, List.filter_eq_nil_iff]
  simp

/-- What was declared since is what some deployment declared that no removal of the account
followed. -/
theorem mem_since_iff {d : δ} : d ∈ c.since a past ↔ ∃ before after id s l reply,
    past = before ++ (.addApplication id s l, .reply reply) :: after ∧ id.account = a ∧
      d ∈ c.declared s ∧ ∀ reply', (.removeAccount a, .reply reply') ∉ after := by
  induction past using List.reverseRecOn with
  | nil => simp [since]
  | append_singleton past e ih =>
    rw [since_concat, mem_follow_iff, ih]
    constructor
    · rintro (⟨id, s, l, reply, rfl, hid, hd⟩ |
        ⟨⟨before, after, id, s, l, reply, rfl, hid, hd, hkept⟩, he⟩)
      · exact ⟨past, [], id, s, l, reply, rfl, hid, hd, fun _ => List.not_mem_nil⟩
      · refine ⟨before, after ++ [e], id, s, l, reply, List.append_assoc _ _ _, hid, hd, ?_⟩
        intro reply' hmem
        rcases List.mem_append.mp hmem with hmem | hmem
        · exact hkept reply' hmem
        · exact he reply' (List.mem_singleton.mp hmem).symm
    · rintro ⟨before, after, id, s, l, reply, heq, hid, hd, hkept⟩
      rcases List.eq_nil_or_concat after with rfl | ⟨after, e', rfl⟩
      · obtain rfl := List.singleton_inj.mp (List.append_inj' heq rfl).2
        exact .inl ⟨id, s, l, reply, rfl, hid, hd⟩
      · rw [List.concat_eq_append, ← List.cons_append, ← List.append_assoc] at heq
        obtain ⟨rfl, he⟩ := List.append_inj' heq rfl
        obtain rfl := List.singleton_inj.mp he
        refine .inr ⟨⟨before, after, id, s, l, reply, rfl, hid, hd, fun reply' hmem => ?_⟩, ?_⟩
        · exact hkept reply' (by simp [hmem])
        · rintro reply' rfl
          exact hkept reply' (by simp)

/-! ## Merging a specification -/

theorem key_inj {a' : AccountId} {name' : String} (h : c.key a name = .ok k)
    (h' : c.key a' name' = .ok k) : a = a' ∧ name = name' := by
  have hsame : a.application name = a'.application name' := Layout.ofApplication_inj h h'
  exact ⟨congrArg ApplicationId.account hsame, congrArg ApplicationId.name hsame⟩

theorem holds_key (h : c.key a name = .ok k) : c.keyspace.Holds a k :=
  (Layout.spells_ofApplication c.keyspace _).holds h List.prefix_rfl

/-- Puts some entries into the catalog of an account. -/
def put [Codec δ] (c : Catalog δ) (a : AccountId) (l : List δ) : RegistryTransaction Unit :=
  l.forM fun d => do RegistryTransaction.put (← demandKey (c.key a (c.name d))) d

theorem mergeCatalog_eq (a : AccountId) (s : Specification) : Application.mergeCatalog a s =
    streams.put a (streams.declared s) >>= fun _ => datasets.put a (datasets.declared s) := rfl

/-- What entries that are put into a catalog make of it: they stand there under their names, the
last of a name. -/
structure Puts [Codec δ] (c : Catalog δ) (a : AccountId) (l : List δ) (m m' : OrderedMap Key Json) :
    Prop where
  isOk : ∀ d ∈ l, ∃ k, c.key a (c.name d) = .ok k
  named : ∀ name k, c.key a name = .ok k → m'.get? k = ((c.last name l).map stored).or (m.get? k)

theorem puts_of_runOn [Codec δ] {l : List δ} (h : (c.put a l).runOn m = (.done (), m')) :
    c.Puts a l m m' ∧ ∀ k, (∀ name, c.key a name ≠ .ok k) → m'.get? k = m.get? k := by
  induction l generalizing m with
  | nil =>
    obtain rfl : m = m' := congrArg Prod.snd h
    exact ⟨⟨nofun, fun name k _ => rfl⟩, fun k _ => rfl⟩
  | cons d l ih =>
    obtain ⟨_, m₁, hfirst, hrest⟩ := Transaction.of_runOn_bind h
    obtain ⟨k, copy, hkey, hput⟩ := Transaction.of_runOn_bind hfirst
    obtain ⟨hk, rfl⟩ : c.key a (c.name d) = .ok k ∧ copy = m := by
      cases hk : c.key a (c.name d) with
      | error e =>
        rw [hk] at hkey
        cases hkey
      | ok k' =>
        rw [hk] at hkey
        cases hkey
        exact ⟨rfl, rfl⟩
    obtain rfl : copy.insert k (stored d) = m₁ := congrArg Prod.snd hput
    obtain ⟨⟨hkeys, hnamed⟩, hother⟩ := ih hrest
    refine ⟨⟨?_, fun name k' hk' => ?_⟩, fun k' hk' => ?_⟩
    · rintro d' (_ | ⟨_, hd'⟩)
      · exact ⟨k, hk⟩
      · exact hkeys d' hd'
    · -- The first entry counts only if none of the others has its name.
      have hlast : c.last name (d :: l) =
          (c.last name l).or (if c.name d = name then some d else none) := by
        rw [← List.singleton_append, last_append]
        by_cases hd : c.name d = name <;> simp [last, hd]
      rw [hnamed name k' hk', hlast, OrderedMap.get?_insert, Option.map_or, Option.or_assoc]
      congr 1
      by_cases hd : c.name d = name
      · obtain rfl : k = k' := Except.ok.inj (hk.symm.trans (hd ▸ hk'))
        rw [if_pos rfl, if_pos hd]
        rfl
      · have hkk' : k ≠ k' := by
          rintro rfl
          exact hd (key_inj hk hk').2
        rw [if_neg hkk', if_neg hd]
        rfl
    · rw [hother k' hk', OrderedMap.get?_insert, if_neg]
      rintro rfl
      exact hk' _ hk

/-- A catalog that the merge of a specification puts the declared entries into. -/
def Merged [Codec δ] (c : Catalog δ) : Prop := ∀ a s m m',
  (Application.mergeCatalog a s).runOn m = (.done (), m') → c.Puts a (c.declared s) m m'

theorem key_ne {δ' : Type} {c' : Catalog δ'} {a' : AccountId} {name' : String}
    (hc : c.keyspace ≠ c'.keyspace) (h : c.key a name = .ok k) : c'.key a' name' ≠ .ok k :=
  fun h' => hc ((holds_key h).unique (holds_key h')).1

theorem merged_streams : streams.Merged := by
  intro a s m m' h
  rw [mergeCatalog_eq] at h
  obtain ⟨_, m₁, hstreams, hdatasets⟩ := Transaction.of_runOn_bind h
  obtain ⟨hputs, -⟩ := puts_of_runOn hstreams
  obtain ⟨-, hother⟩ := puts_of_runOn hdatasets
  -- The merge of the datasets comes second and leaves the streams alone.
  refine ⟨hputs.isOk, fun name k hk => ?_⟩
  rw [hother k fun _ => key_ne (by decide) hk]
  exact hputs.named name k hk

theorem merged_datasets : datasets.Merged := by
  intro a s m m' h
  rw [mergeCatalog_eq] at h
  obtain ⟨_, m₁, hstreams, hdatasets⟩ := Transaction.of_runOn_bind h
  obtain ⟨-, hother⟩ := puts_of_runOn hstreams
  obtain ⟨hputs, -⟩ := puts_of_runOn hdatasets
  refine ⟨hputs.isOk, fun name k hk => ?_⟩
  rw [hputs.named name k hk, hother k fun _ => key_ne (by decide) hk]

/-! ## The store in step -/

/-- The store is in step with what was asked and answered. -/
structure Tracks [Codec δ] (c : Catalog δ) (past : List (Operation × Answer))
    (m : OrderedMap Key Json) : Prop where
  record : ∀ a name k, c.key a name = .ok k →
    m.get? k = (c.last name (c.since a past)).map stored
  isOk : ∀ a, ∀ d ∈ c.since a past, ∃ k, c.key a (c.name d) = .ok k

section Steps
variable [Codec δ] {now : Instant} {reply : Reply} {e : Operation × Answer}

theorem tracks_nil : c.Tracks [] ∅ := ⟨fun _ _ _ _ => rfl, fun _ => nofun⟩

/-- A step that leaves every catalog as it was. -/
theorem Tracks.unchanged (h : c.Tracks past m) (hfollow : ∀ a l, c.follow a l e = l)
    (hget : ∀ a name k, c.key a name = .ok k → m'.get? k = m.get? k) :
    c.Tracks (past ++ [e]) m' := by
  constructor
  · intro a name k hk
    rw [since_concat, hfollow, hget a name k hk]
    exact h.record a name k hk
  · intro a
    rw [since_concat, hfollow]
    exact h.isOk a

/-- A step that puts entries into the catalog of one account. -/
theorem Tracks.merged (h : c.Tracks past m) {l : List δ} (hputs : c.Puts a l m m')
    (hfollow : ∀ b l₀, c.follow b l₀ e = if a = b then l₀ ++ l else l₀)
    (hother : ∀ b name k, a ≠ b → c.key b name = .ok k → m'.get? k = m.get? k) :
    c.Tracks (past ++ [e]) m' := by
  constructor
  · intro b name k hk
    rw [since_concat, hfollow]
    split
    · next hb =>
      subst hb
      rw [hputs.named name k hk, last_append, Option.map_or, h.record a name k hk]
    · next hb =>
      rw [hother b name k hb hk]
      exact h.record b name k hk
  · intro b d hd
    rw [since_concat, hfollow] at hd
    split at hd
    · next hb =>
      subst hb
      exact (List.mem_append.mp hd).elim (h.isOk a d) (hputs.isOk d)
    · exact h.isOk b d hd

/-- A step that empties the catalog of one account. -/
theorem Tracks.removed (h : c.Tracks past m)
    (hfollow : ∀ b l₀, c.follow b l₀ e = if a = b then [] else l₀)
    (hnone : ∀ name k, c.key a name = .ok k → m'.get? k = none)
    (hother : ∀ b name k, a ≠ b → c.key b name = .ok k → m'.get? k = m.get? k) :
    c.Tracks (past ++ [e]) m' := by
  constructor
  · intro b name k hk
    rw [since_concat, hfollow]
    split
    · next hb => exact hnone name k (hb ▸ hk)
    · next hb =>
      rw [hother b name k hb hk]
      exact h.record b name k hk
  · intro b d hd
    rw [since_concat, hfollow] at hd
    split at hd
    · cases hd
    · exact h.isOk b d hd

omit [Codec δ] in
/-- Only a deployment and the removal of an account reach a catalog. -/
theorem not_writes {op : Operation} (hk : c.keyspace.Holds a k)
    (hadd : ∀ id s l, op = .addApplication id s l → id.account ≠ a)
    (hremove : ∀ b, op = .removeAccount b → b ≠ a) : ¬ op.Writes k := by
  have hne : ∀ {s : Keyspace} {b}, s.Holds b k → s = .streams ∨ s = .datasets := fun h =>
    (hk.unique h).1 ▸ c.is_catalog
  intro h
  cases op with
  | addApplication id s l =>
    rcases h with h | h | h <;> exact hadd id s l rfl (h.unique hk).2
  | removeAccount b => exact hremove b rfl (h.unique ⟨_, hk⟩)
  | removeApplication | removeApplications =>
    rcases h with h | h <;> exact absurd (hne h) (by decide)
  | setInstances | setArguments => exact absurd (hne h) (by decide)
  | startRun p r time | stopRun p r time status =>
    rcases h with h | ⟨t, h⟩
    · exact absurd (hne (Layout.holds_runIndex h)) (by decide)
    · exact absurd (hne (Layout.holds_run h)) (by decide)
  | _ => exact h

/-- **Every operation that gets through keeps the store in step.** -/
theorem Tracks.gives (h : c.Tracks past m) (hc : c.Merged) (hm : AllStorable m) {op : Operation}
    (hg : (op.request now).Gives m (.reply reply) m') :
    c.Tracks (past ++ [(op, .reply reply)]) m' := by
  have hkept : ∀ k, ¬ op.Writes k → m'.get? k = m.get? k := fun k hk =>
    hg.get?_eq (op.alike now now) hm hk
  cases op with
  | addApplication id s l =>
    obtain ⟨k, catalog, hk, hmerge, rfl⟩ := gives_addApplication hg
    have hputs := hc _ _ _ _ hmerge
    -- The record of the application is put after the merge, in another keyspace.
    refine h.merged (a := id.account) (l := c.declared s) ⟨hputs.isOk, fun name k' hk' => ?_⟩
      (fun _ _ => rfl) fun b name k' hb hk' => hkept k' (not_writes (holds_key hk') ?_ nofun)
    · rw [OrderedMap.get?_insert, if_neg, hputs.named name k' hk']
      rintro rfl
      exact (holds_key hk').not_application c.keyspace_ne _ (Layout.holds_application hk)
    · rintro _ _ _ ⟨⟩
      exact hb
  | removeAccount b =>
    obtain ⟨-, hnone⟩ := gives_removeAccount hg
    refine h.removed (a := b) (fun _ _ => rfl) (fun name k hk => hnone k ⟨_, holds_key hk⟩)
      fun b' name k hb hk => hkept k (not_writes (holds_key hk) nofun ?_)
    rintro _ ⟨⟩
    exact hb
  | _ =>
    exact h.unchanged (fun _ _ => rfl) fun a name k hk =>
      hkept k (not_writes (holds_key hk) nofun nofun)

omit [Codec δ] in
theorem follow_of_not_reply {answer : Answer} (ha : ∀ r, answer ≠ .reply r) (op : Operation)
    (a : AccountId) (l : List δ) : c.follow a l (op, answer) = l := by
  cases answer with
  | reply r => exact absurd rfl (ha r)
  | _ => simp [follow]

end Steps

/-! ## Questions -/

section Questions
variable [Codec δ] {σ : Type} {L : Loader σ} {g : Registry σ} {t : FileTree} {now : Instant}
  {op : Operation}

/-- A question for the names in a catalog. -/
theorem Tracks.answers_names (h : c.Tracks past m) (hholds : g.Holds m t)
    (hop : op.request now = .ask .names (Application.namesUnder (Layout.ofAccount c.keyspace a))) :
    ((Registry.perform L g now op).run t).1.1 =
      .reply (.names (.ofList ((c.since a past).map c.name))) := by
  rw [hholds.answers_names hop]
  refine congrArg (fun names => Answer.reply (.names names)) (OrderedSet.ofList_congr fun name => ?_)
  rw [mem_namesIn_iff, ← isSome_last_iff]
  constructor
  · rintro ⟨k, hk, hsome⟩
    rwa [h.record a name k hk, Option.isSome_map] at hsome
  · intro hsome
    obtain ⟨d, hd, rfl⟩ := List.mem_map.mp (isSome_last_iff.mp hsome)
    obtain ⟨k, hk⟩ := h.isOk a d hd
    refine ⟨k, hk, ?_⟩
    rwa [h.record a _ k hk, Option.isSome_map]

/-- The question for an entry of a catalog. -/
def find (c : Catalog δ) (a : AccountId) (name : String) : Query (Option δ) :=
  match c.key a name with
  | .error _ => .known (.ok none)
  | .ok k => .ask (fetch δ k)

theorem Tracks.answers_find [LawfulCodec δ] (h : c.Tracks past m) (hholds : g.Holds m t)
    (hroom : ∀ k, c.key a name = .ok k → g.store.HasRoom k) {reply : Option δ → Reply}
    (hop : op.request now = (c.find a name).request reply) :
    ((Registry.perform L g now op).run t).1.1 =
      .reply (reply (c.last name (c.since a past))) := by
  unfold find at hop
  cases hk : c.key a name with
  | error e =>
    rw [hk] at hop
    -- A name that gives no key was never declared.
    have hnone : c.last name (c.since a past) = none := by
      rw [← Option.not_isSome_iff_eq_none, isSome_last_iff]
      intro hname
      obtain ⟨d, hd, rfl⟩ := List.mem_map.mp hname
      obtain ⟨k, hk'⟩ := h.isOk a d hd
      cases hk.symm.trans hk'
    rw [Registry.perform_eq_serve, hop, hnone]
    rfl
  | ok k =>
    simp only [hk] at hop
    refine hholds.answers (c := m) hop ?_ (staysIn_fetch (hroom k hk))
    rw [runOn_fetch, h.record a name k hk]
    cases c.last name (c.since a past) with
    | none => rfl
    | some d => simp only [Option.map_some, decode?_stored]

end Questions

end Catalog

/-! ## Reachable states -/

namespace Registry

variable {σ : Type} {L : Loader σ} {g : Registry σ} {t : FileTree}

/-- In every reachable state a catalog is in step with what was asked and answered, if the loader
applied all that was committed. -/
theorem Reached.tracksCatalog [Codec δ] {c : Catalog δ} (h : Reached L past g t)
    (happlied : L.AppliedIn past) (hc : c.Merged) : ∃ m, g.Holds m t ∧ c.Tracks past m :=
  h.exists_holds_of_appliedIn happlied Catalog.tracks_nil
    (fun _ _ _ _ _ _ hm h hg => h.gives hc hm hg) fun _ op _ _ ha h =>
    h.unchanged (Catalog.follow_of_not_reply ha op) fun _ _ _ _ => rfl

/-- **The catalog of an account.** In every state that is reached with a loader that applied all that
was committed, as one that never fails to apply a change does (`Loader.Applies.appliedIn`), the
streams of an account are those that its deployments declared since the last removal of the account,
and the stream of a name, for whose record there is room, is the last one that was declared with
this name. The same goes for the datasets. -/
theorem account_catalog (h : Reached L past g t) (happlied : L.AppliedIn past) (a : AccountId)
    (now : Instant) :
    ((perform L g now (.streams a)).run t).1.1 =
      .reply (.names (.ofList ((Catalog.streams.since a past).map (·.name)))) ∧
    (∀ name, (∀ k, Layout.stream a name = .ok k → g.store.HasRoom k) →
      ((perform L g now (.stream a name)).run t).1.1 =
        .reply (.stream (Catalog.streams.last name (Catalog.streams.since a past)))) ∧
    ((perform L g now (.datasets a)).run t).1.1 =
      .reply (.names (.ofList ((Catalog.datasets.since a past).map (·.name)))) ∧
    ∀ name, (∀ k, Layout.dataset a name = .ok k → g.store.HasRoom k) →
      ((perform L g now (.dataset a name)).run t).1.1 =
        .reply (.dataset (Catalog.datasets.last name (Catalog.datasets.since a past))) := by
  obtain ⟨m, hholds, hstreams⟩ := h.tracksCatalog happlied Catalog.merged_streams
  obtain ⟨m', hholds', hdatasets⟩ := h.tracksCatalog happlied Catalog.merged_datasets
  refine ⟨hstreams.answers_names hholds rfl, fun name hroom => ?_,
    hdatasets.answers_names hholds' rfl, fun name hroom => ?_⟩
  · exact hstreams.answers_find hholds hroom rfl
  · exact hdatasets.answers_find hholds' hroom rfl

/-! ### A stream that outlives its application -/

/-- An application of a forum. -/
def forum : ApplicationId := ⟨⟨"acme"⟩, "forum"⟩

/-- A specification that declares a stream, under another key, and a dataset. -/
def posting : Specification :=
  { streams := .ofList [("in", ⟨"posts"⟩)], datasets := .ofList [("users", ⟨"users", "Table", ∅⟩)] }

/-- The forum is deployed, then deployed without its stream and its dataset, and removed. -/
def closed : List TimedOperation :=
  [(noon, .addApplication forum posting ⟨"forum.jar"⟩),
    (noon, .addApplication forum {} ⟨"forum.jar"⟩), (noon, .removeApplication forum)]

theorem account_catalog_closed : ∃ g t, (Loader.ofSpecification Unit).Applies ∧
    Reached (.ofSpecification Unit) (history closed [.reply .done, .reply .done, .reply .done]) g t ∧
    ∀ now,
      ((perform (.ofSpecification Unit) g now (.streams ⟨"acme"⟩)).run t).1.1 =
        .reply (.names (.ofList ["posts"])) ∧
      ((perform (.ofSpecification Unit) g now (.dataset ⟨"acme"⟩ "users")).run t).1.1 =
        .reply (.dataset (some ⟨"users", "Table", ∅⟩)) := by
  have happlies : (Loader.ofSpecification Unit).Applies := fun _ _ _ => rfl
  obtain ⟨g, t, hreached, hroot⟩ := reached_inMemory (.ofSpecification Unit) () .empty
    closed [.reply .done, .reply .done, .reply .done] (by decide +kernel) (by decide)
  refine ⟨g, t, happlies, hreached, fun now => ?_⟩
  obtain ⟨hstreams, -, -, hdataset⟩ :=
    account_catalog hreached (happlies.appliedIn _) ⟨"acme"⟩ now
  exact ⟨hstreams, hdataset "users" fun _ _ root hr => absurd (hroot.symm.trans hr) nofun⟩

end Registry

end AppRegistry
