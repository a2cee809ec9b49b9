import AppRegistry.Files.Script

/-!
# Runs that are cut short or disturbed

`Script.run` runs a script to its end, and every call answers as the tree has it. Two other ways to
run a script are defined here.

* A process may be killed (`Script.Killed`): between two calls, or in the middle of a write, which
  then leaves any bytes in the file. The calls made until then are recorded.
* A call may fail although the tree gives no reason for it (`Script.runUnder`). A plan says which
  calls are struck by a fault, and what a write that fails leaves behind.

One relation is proved of a script and serves for all of these. `Script.Meets` says that an
invariant holds at every point where the process may be killed, and a postcondition at the end,
whatever the calls answer. It is proved piece by piece (`Meets.bind`) and then read off for a whole
run (`Meets.run`), for a killed one (`Meets.killed`) and for a disturbed one (`Meets.runUnder`).
`Script.Only` says of a script which calls it may make at all, and `Script.Steps` of a single run
which calls it makes in which trees.
-/

namespace AppRegistry

variable {α β : Type}

/-! ## Faults -/

/-- A failure that strikes a call whatever the tree holds. It does not claim that something is
missing, and if it strikes a write, part of a file may be left. -/
structure Fault where
  error : FileError
  torn : Option ByteArray
  error_ne : error ≠ .notFound

namespace FileTree

/-- The ways in which a call may be answered: as the tree has it and, if there may be faults, by a
failure without a reason in the tree. -/
inductive Answers (faults : Prop) (t : FileTree) :
    FileCall → Except FileError Unit → FileTree → Prop
  | made {c : FileCall} {t' : FileTree} : t.run c = .ok t' → Answers faults t c (.ok ()) t'
  | refused {c : FileCall} {e : FileError} : t.run c = .error e → Answers faults t c (.error e) t
  | struck {c : FileCall} {e : FileError} : faults → e ≠ .notFound → Answers faults t c (.error e) t
  | torn {p : Path} {b b' : ByteArray} {e : FileError} {t' : FileTree} : faults → e ≠ .notFound →
      t.run (.write p b') = .ok t' → Answers faults t (.write p b) (.error e) t'

/-- The answer to a call that may be struck by a fault. -/
def answer (t : FileTree) (c : FileCall) : Option Fault → Except FileError Unit × FileTree
  | none =>
    match t.run c with
    | .ok t' => (.ok (), t')
    | .error e => (.error e, t)
  | some f =>
    match c, f.torn with
    | .write p _, some b =>
      match t.run (.write p b) with
      | .ok t' => (.error f.error, t')
      | .error _ => (.error f.error, t)
    | _, _ => (.error f.error, t)

theorem answers_answer (t : FileTree) (c : FileCall) (f : Option Fault) :
    t.Answers True c (t.answer c f).1 (t.answer c f).2 := by
  cases f with
  | none =>
    simp only [answer]
    split
    · next h => exact .made h
    · next h => exact .refused h
  | some f =>
    simp only [answer]
    split
    · split
      · next h => exact .torn trivial f.error_ne h
      · exact .struck trivial f.error_ne
    · exact .struck trivial f.error_ne

theorem Answers.mono {F G : Prop} (h : F → G) {t t' : FileTree} {c : FileCall}
    {r : Except FileError Unit} (ha : t.Answers F c r t') : t.Answers G c r t' := by
  cases ha with
  | made hr => exact .made hr
  | refused hr => exact .refused hr
  | struck hf he => exact .struck (h hf) he
  | torn hf he hr => exact .torn (h hf) he hr

end FileTree

namespace Script

/-! ## Three ways to run a script -/

/-- The calls of a run that succeed, in order. -/
def calls : Script α → FileTree → List FileCall
  | done _, _ => []
  | look next, t => (next t).calls t
  | call c next, t =>
    match t.run c with
    | .ok t' => c :: (next (.ok ())).calls t'
    | .error e => (next (.error e)).calls t

/-- A process that runs a script can be killed so that it has made the listed calls and leaves the
second tree. -/
inductive Killed : Script α → FileTree → List FileCall → FileTree → Prop
  | ended (a : α) (t : FileTree) : Killed (done a) t [] t
  | before (c : FileCall) (next : Except FileError Unit → Script α) (t : FileTree) :
      Killed (call c next) t [] t
  | during {p : Path} {b b' : ByteArray} {next : Except FileError Unit → Script α}
      {t t' : FileTree} : t.run (.write p b') = .ok t' → Killed (call (.write p b) next) t [] t'
  | look {next : FileTree → Script α} {t t' : FileTree} {cs : List FileCall} :
      Killed (next t) t cs t' → Killed (look next) t cs t'
  | made {c : FileCall} {next : Except FileError Unit → Script α} {t t₁ t' : FileTree}
      {cs : List FileCall} : t.run c = .ok t₁ → Killed (next (.ok ())) t₁ cs t' →
      Killed (call c next) t (c :: cs) t'
  | refused {c : FileCall} {next : Except FileError Unit → Script α} {t t' : FileTree}
      {e : FileError} {cs : List FileCall} : t.run c = .error e → Killed (next (.error e)) t cs t' →
      Killed (call c next) t cs t'

/-- Runs a script under a plan that says for each call, first first, whether a fault strikes it. The
calls after the plan are not struck. The part of the plan that is left over is returned. -/
def runUnder : Script α → List (Option Fault) → FileTree → α × List (Option Fault) × FileTree
  | done a, plan, t => (a, plan, t)
  | look next, plan, t => (next t).runUnder plan t
  | call c next, plan, t =>
    (next (t.answer c plan.head?.join).1).runUnder plan.tail (t.answer c plan.head?.join).2

/-- Without faults a disturbed run is a run like any other. -/
theorem runUnder_of_quiet (s : Script α) {plan : List (Option Fault)} (h : ∀ f ∈ plan, f = none)
    (t : FileTree) : ∃ rest, s.runUnder plan t = ((s.run t).1, rest, (s.run t).2) := by
  induction s generalizing plan t with
  | done a => exact ⟨plan, rfl⟩
  | look next ih => exact ih t h t
  | call c next ih =>
    have hhead : plan.head?.join = none := by
      cases plan with
      | nil => rfl
      | cons f plan => exact congrArg Option.join (congrArg some (h f List.mem_cons_self))
    have htail : ∀ f ∈ plan.tail, f = none := fun f hf => h f (List.mem_of_mem_tail hf)
    cases hr : t.run c with
    | ok t' => simpa [runUnder, run, FileTree.answer, hr, hhead] using ih (.ok ()) htail t'
    | error e => simpa [runUnder, run, FileTree.answer, hr, hhead] using ih (.error e) htail t

theorem runUnder_bind (s : Script α) (f : α → Script β) (plan : List (Option Fault))
    (t : FileTree) : (s >>= f).runUnder plan t =
      (f (s.runUnder plan t).1).runUnder (s.runUnder plan t).2.1 (s.runUnder plan t).2.2 := by
  show (s.bind f).runUnder plan t = _
  induction s generalizing plan t with
  | done a => rfl
  | look next ih => exact ih t plan t
  | call c next ih => exact ih _ _ _

theorem calls_bind (s : Script α) (f : α → Script β) (t : FileTree) :
    (s >>= f).calls t = s.calls t ++ (f (s.run t).1).calls (s.run t).2 := by
  show (s.bind f).calls t = _
  induction s generalizing t with
  | done a => rfl
  | look next ih => exact ih t t
  | call c next ih =>
    cases hr : t.run c with
    | ok t' => simpa [Script.bind, calls, run, hr] using ih (.ok ()) t'
    | error e => simpa [Script.bind, calls, run, hr] using ih (.error e) t

/-- A process is killed in the first of two scripts or, after the calls of the first, in the second.
-/
theorem Killed.bind_cases {s : Script α} {f : α → Script β} {t t' : FileTree} {cs : List FileCall}
    (h : (s >>= f).Killed t cs t') : s.Killed t cs t' ∨
      ∃ rest, cs = s.calls t ++ rest ∧ (f (s.run t).1).Killed (s.run t).2 rest t' := by
  change (s.bind f).Killed t cs t' at h
  induction s generalizing t cs with
  | done a => exact .inr ⟨cs, rfl, h⟩
  | look next ih =>
    cases h with
    | look h => exact (ih _ h).imp .look id
  | call c next ih =>
    cases h with
    | before => exact .inl (.before c next _)
    | during hr => exact .inl (.during hr)
    | made hr hrest =>
      rcases ih _ hrest with hk | ⟨rest, rfl, hk⟩
      · exact .inl (.made hr hk)
      · exact .inr ⟨rest, by simp [calls, hr], by simpa [run, hr] using hk⟩
    | refused hr hrest =>
      rcases ih _ hrest with hk | ⟨rest, rfl, hk⟩
      · exact .inl (.refused hr hk)
      · exact .inr ⟨rest, by simp [calls, hr], by simpa [run, hr] using hk⟩

/-- A process may be killed when it is done. -/
theorem killed_run (s : Script α) (t : FileTree) : s.Killed t (s.calls t) (s.run t).2 := by
  induction s generalizing t with
  | done a => exact .ended a t
  | look next ih => exact .look (ih t t)
  | call c next ih =>
    cases hr : t.run c with
    | ok t' =>
      rw [calls, run, hr]
      exact .made hr (ih (.ok ()) t')
    | error e =>
      rw [calls, run, hr]
      exact .refused hr (ih (.error e) t)

theorem killed_pure {a : α} {t t' : FileTree} {cs : List FileCall}
    (h : (pure a : Script α).Killed t cs t') : cs = [] ∧ t' = t := by
  cases h
  exact ⟨rfl, rfl⟩

/-- What a process has done when it is killed after so many calls that succeeded. -/
def after : Nat → Script α → FileTree → List FileCall × FileTree
  | _, done _, t => ([], t)
  | n, look next, t => after n (next t) t
  | 0, call _ _, t => ([], t)
  | n + 1, call c next, t =>
    match t.run c with
    | .ok t' => (c :: (after n (next (.ok ())) t').1, (after n (next (.ok ())) t').2)
    | .error e => after (n + 1) (next (.error e)) t

theorem killed_after (n : Nat) (s : Script α) (t : FileTree) :
    s.Killed t (s.after n t).1 (s.after n t).2 := by
  induction s generalizing n t with
  | done a => cases n <;> exact .ended a t
  | look next ih => cases n <;> exact .look (ih t _ t)
  | call c next ih =>
    cases n with
    | zero => exact .before c next t
    | succ n =>
      simp only [after]
      split
      · next hr => exact .made hr (ih _ _ _)
      · next hr => exact .refused hr (ih _ _ _)

/-- Nothing more happens where only the result is still to be given. -/
theorem Killed.of_bind_pure {s : Script α} {f : α → Script β} {t t' : FileTree}
    {cs : List FileCall} (h : (s >>= f).Killed t cs t') (hf : ∀ a, ∃ b, f a = pure b) :
    s.Killed t cs t' := by
  rcases h.bind_cases with hs | ⟨rest, rfl, hend⟩
  · exact hs
  · obtain ⟨b, hb⟩ := hf (s.run t).1
    rw [hb] at hend
    obtain ⟨rfl, rfl⟩ := killed_pure hend
    rw [List.append_nil]
    exact killed_run s t

/-! ## What a script keeps and reaches -/

/-- Whatever the calls answer: `inv` holds wherever the process may be killed, and `post` at the
end. -/
def Meets (faults : Prop) (inv : FileTree → Prop) :
    Script α → (α → FileTree → Prop) → FileTree → Prop
  | done a, post, t => inv t ∧ post a t
  | look next, post, t => (next t).Meets faults inv post t
  | call c next, post, t => inv t ∧
      (∀ p b b' t', c = .write p b → t.run (.write p b') = .ok t' → inv t') ∧
      ∀ r t', t.Answers faults c r t' → (next r).Meets faults inv post t'

section Meets
variable {F : Prop} {inv : FileTree → Prop} {post : α → FileTree → Prop} {t : FileTree}

theorem Meets.mono {s : Script α} {G : Prop} {inv' : FileTree → Prop} {post' : α → FileTree → Prop}
    (h : s.Meets F inv post t) (hG : G → F) (hinv : ∀ t, inv t → inv' t)
    (hpost : ∀ a t, post a t → post' a t) : s.Meets G inv' post' t := by
  induction s generalizing t with
  | done a => exact ⟨hinv t h.1, hpost a t h.2⟩
  | look next ih => exact ih t h
  | call c next ih =>
    refine ⟨hinv t h.1, fun p b b' t' hc hr => hinv t' (h.2.1 p b b' t' hc hr), fun r t' ha => ?_⟩
    exact ih r (h.2.2 r t' (ha.mono hG))

theorem Meets.post_mono {s : Script α} {post' : α → FileTree → Prop} (h : s.Meets F inv post t)
    (hpost : ∀ a t, post a t → post' a t) : s.Meets F inv post' t :=
  h.mono id (fun _ => id) hpost

/-- The invariant holds at the end as well. -/
theorem Meets.and_inv {s : Script α} (h : s.Meets F inv post t) :
    s.Meets F inv (fun a t => inv t ∧ post a t) t := by
  induction s generalizing t with
  | done a => exact ⟨h.1, h⟩
  | look next ih => exact ih t h
  | call c next ih => exact ⟨h.1, h.2.1, fun r t' ha => ih r (h.2.2 r t' ha)⟩

/-- The second script starts where the first ends, and the invariant holds there. -/
theorem Meets.bind {s : Script α} {f : α → Script β} {goal : β → FileTree → Prop}
    (h : s.Meets F inv (fun a t => inv t → (f a).Meets F inv goal t) t) :
    (s >>= f).Meets F inv goal t := by
  show (s.bind f).Meets F inv goal t
  induction s generalizing t with
  | done a => exact h.2 h.1
  | look next ih => exact ih t h
  | call c next ih => exact ⟨h.1, h.2.1, fun r t' ha => ih r (h.2.2 r t' ha)⟩

theorem Meets.run {s : Script α} (h : s.Meets F inv post t) : post (s.run t).1 (s.run t).2 := by
  induction s generalizing t with
  | done a => exact h.2
  | look next ih => exact ih t h
  | call c next ih =>
    simp only [Script.run]
    split
    · next hr => exact ih _ (h.2.2 _ _ (.made hr))
    · next hr => exact ih _ (h.2.2 _ _ (.refused hr))

theorem Meets.killed {s : Script α} {cs : List FileCall} {t' : FileTree} (h : s.Meets F inv post t)
    (hk : s.Killed t cs t') : inv t' := by
  induction hk with
  | ended => exact h.1
  | before => exact h.1
  | during hr => exact h.2.1 _ _ _ _ rfl hr
  | look _ ih => exact ih h
  | made hr _ ih => exact ih (h.2.2 _ _ (.made hr))
  | refused hr _ ih => exact ih (h.2.2 _ _ (.refused hr))

theorem Meets.runUnder {s : Script α} (h : s.Meets True inv post t) (plan : List (Option Fault)) :
    post (s.runUnder plan t).1 (s.runUnder plan t).2.2 := by
  induction s generalizing t plan with
  | done a => exact h.2
  | look next ih => exact ih t h plan
  | call c next ih => exact ih _ (h.2.2 _ _ (t.answers_answer c _)) _

end Meets

/-! ## Which calls a script makes -/

/-- Every call that a script may make satisfies `P`, whatever it sees and whatever is answered. -/
def Only (P : FileCall → Prop) : Script α → Prop
  | done _ => True
  | look next => ∀ t, (next t).Only P
  | call c next => P c ∧ ∀ r, (next r).Only P

section Only
variable {P : FileCall → Prop}

theorem only_pure (a : α) : (pure a : Script α).Only P := trivial

theorem only_see (f : FileTree → α) : (see f).Only P := fun _ => trivial

theorem only_make {c : FileCall} (h : P c) : (make c).Only P := by
  unfold make
  split
  · exact ⟨h, fun _ => trivial⟩
  · trivial

theorem Only.bind {s : Script α} {f : α → Script β} (h : s.Only P) (hf : ∀ a, (f a).Only P) :
    (s >>= f).Only P := by
  show (s.bind f).Only P
  induction s with
  | done a => exact hf a
  | look next ih => exact fun t => ih t (h t)
  | call c next ih => exact ⟨h.1, fun r => ih r (h.2 r)⟩

theorem only_createFrom {P : FileCall → Prop} {create : β → Script (Except FileError Unit)}
    {isThere : β → FileTree → Bool} {l : List β} (h : ∀ d ∈ l, (create d).Only P) :
    (createFrom create isThere l).Only P := by
  have hunless : ∀ d ∈ l, (createUnlessThere (create d) (isThere d)).Only P := by
    intro d hd
    unfold createUnlessThere
    apply (h d hd).bind
    intro r
    split
    · apply (only_see _).bind
      intro b
      split <;> exact only_pure _
    · exact only_pure _
  induction l with
  | nil => exact only_pure _
  | cons d l ih =>
    have ih := ih (fun d hd => h d (List.mem_cons_of_mem _ hd))
      fun d hd => hunless d (List.mem_cons_of_mem _ hd)
    unfold createFrom
    apply (hunless d List.mem_cons_self).bind
    intro r
    split
    · apply ih.bind
      intro r'
      split
      · exact hunless d List.mem_cons_self
      · exact only_pure _
    · exact only_pure _

theorem Only.mono {Q : FileCall → Prop} {s : Script α} (h : s.Only P) (hPQ : ∀ c, P c → Q c) :
    s.Only Q := by
  induction s with
  | done a => trivial
  | look next ih => exact fun t => ih t (h t)
  | call c next ih => exact ⟨hPQ c h.1, fun r => ih r (h.2 r)⟩

theorem Only.calls {s : Script α} (h : s.Only P) (t : FileTree) : ∀ c ∈ s.calls t, P c := by
  induction s generalizing t with
  | done a => exact fun c hc => absurd hc List.not_mem_nil
  | look next ih => exact ih t (h t) t
  | call c next ih =>
    simp only [Script.calls]
    split
    · exact List.forall_mem_cons.mpr ⟨h.1, ih _ (h.2 _) _⟩
    · exact ih _ (h.2 _) _

theorem Only.killed {s : Script α} (h : s.Only P) {t t' : FileTree} {cs : List FileCall}
    (hk : s.Killed t cs t') : ∀ c ∈ cs, P c := by
  induction hk with
  | ended | before | during => exact fun c hc => absurd hc List.not_mem_nil
  | look _ ih => exact ih (h _)
  | made _ _ ih => exact List.forall_mem_cons.mpr ⟨h.1, ih (h.2 _)⟩
  | refused _ _ ih => exact ih (h.2 _)

/-- What every call of a script keeps, however it is answered, the script keeps all the way. -/
theorem Only.meets {F : Prop} {s : Script α} {I : FileTree → Prop} (h : s.Only P)
    (hI : ∀ c t r t', P c → I t → t.Answers F c r t' → I t')
    (htorn : ∀ p b b' t t', P (.write p b) → I t → t.run (.write p b') = .ok t' → I t')
    {t : FileTree} (ht : I t) : s.Meets F I (fun _ => I) t := by
  induction s generalizing t with
  | done a => exact ⟨ht, ht⟩
  | look next ih => exact ih t (h t) ht
  | call c next ih =>
    refine ⟨ht, fun p b b' t' hc hr => htorn p b b' t t' (hc ▸ h.1) ht hr, fun r t' ha => ?_⟩
    exact ih r (h.2 r) (hI c t r t' h.1 ht ha)

/-- What every call of a script keeps, the script keeps. -/
theorem Only.run {s : Script α} {I : FileTree → Prop} (h : s.Only P)
    (hI : ∀ c t t', P c → I t → t.run c = .ok t' → I t') {t : FileTree} (ht : I t) :
    I (s.run t).2 := by
  induction s generalizing t with
  | done a => exact ht
  | look next ih => exact ih t (h t) ht
  | call c next ih =>
    simp only [Script.run]
    split
    · next hr => exact ih _ (h.2 _) (hI _ _ _ h.1 ht hr)
    · exact ih _ (h.2 _) ht

end Only

/-! ## Which calls a run makes -/

/-- The calls of a run that succeed, in order, each after the tree it is made in. -/
def steps : Script α → FileTree → List (FileTree × FileCall)
  | done _, _ => []
  | look next, t => (next t).steps t
  | call c next, t =>
    match t.run c with
    | .ok t' => (t, c) :: (next (.ok ())).steps t'
    | .error e => (next (.error e)).steps t

theorem steps_bind (s : Script α) (f : α → Script β) (t : FileTree) :
    (s >>= f).steps t = s.steps t ++ (f (s.run t).1).steps (s.run t).2 := by
  show (s.bind f).steps t = _
  induction s generalizing t with
  | done a => rfl
  | look next ih => exact ih t t
  | call c next ih =>
    cases hr : t.run c with
    | ok t' => simpa [Script.bind, steps, run, hr] using ih (.ok ()) t'
    | error e => simpa [Script.bind, steps, run, hr] using ih (.error e) t

/-- Every call of the run from `t` that succeeds satisfies `P` in the tree it is made in. -/
def Steps (P : FileTree → FileCall → Prop) (s : Script α) (t : FileTree) : Prop :=
  ∀ x ∈ s.steps t, P x.1 x.2

section Steps
variable {P : FileTree → FileCall → Prop} {t : FileTree}

theorem steps_pure (a : α) : (pure a : Script α).Steps P t := fun _ hx => nomatch hx

theorem steps_see (f : FileTree → α) : (see f).Steps P t := fun _ hx => nomatch hx

theorem Steps.bind {s : Script α} {f : α → Script β} (h : s.Steps P t)
    (hf : (f (s.run t).1).Steps P (s.run t).2) : (s >>= f).Steps P t := by
  unfold Steps
  rw [steps_bind]
  exact List.forall_mem_append.mpr ⟨h, hf⟩

/-- A run makes no calls but those of its script, and what is said of a step may rest on its
success. -/
theorem Only.steps {Q : FileCall → Prop} {s : Script α} (h : s.Only Q)
    (hQ : ∀ c t t', Q c → t.run c = .ok t' → P t c) (t : FileTree) : s.Steps P t := by
  unfold Steps
  induction s generalizing t with
  | done a => exact fun x hx => nomatch hx
  | look next ih => exact ih t (h t) t
  | call c next ih =>
    unfold Script.steps
    split
    · next hr => exact List.forall_mem_cons.mpr ⟨hQ _ _ _ h.1 hr, ih _ (h.2 _) _⟩
    · exact ih _ (h.2 _) t

theorem steps_make {c : FileCall}
    (h : (∀ p ∈ c.paths, p.fits = true) → ∀ t', t.run c = .ok t' → P t c) :
    (make c).Steps P t := by
  unfold make attempt
  split
  · next hfits =>
    unfold Steps Script.steps
    split
    · next hr => exact List.forall_mem_singleton.mpr (h (List.all_eq_true.mp hfits) _ hr)
    · exact fun x hx => nomatch hx
  · exact steps_pure _

theorem Steps.mono {Q : FileTree → FileCall → Prop} {s : Script α} (h : s.Steps P t)
    (hPQ : ∀ t c, P t c → Q t c) : s.Steps Q t := fun x hx => hPQ _ _ (h x hx)

/-- What every step of a run keeps, the run keeps. -/
theorem Steps.run {s : Script α} {I : FileTree → Prop} (h : s.Steps P t)
    (hI : ∀ c t t', P t c → I t → t.run c = .ok t' → I t') (ht : I t) : I (s.run t).2 := by
  unfold Steps at h
  induction s generalizing t with
  | done a => exact ht
  | look next ih => exact ih t h ht
  | call c next ih =>
    simp only [Script.steps, Script.run] at h ⊢
    cases hr : t.run c with
    | ok t' =>
      simp only [hr] at h ⊢
      obtain ⟨hc, h⟩ := List.forall_mem_cons.mp h
      exact ih _ h (hI _ _ _ hc ht hr)
    | error e =>
      simp only [hr] at h ⊢
      exact ih _ h ht

end Steps

end Script

end AppRegistry
