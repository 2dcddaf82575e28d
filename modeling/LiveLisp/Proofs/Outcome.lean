/-
  Runs of stateful computations, outcome by outcome. Store, machine and session operations are all
  `EStateM`; these are the rules by which a run of a sequence is put together from the runs of its
  parts.
-/
namespace LiveLisp

variable {ε σ α β : Type}

theorem bind_of_ok {x : EStateM ε σ α} {f : α → EStateM ε σ β} {s s' : σ} {a : α}
    (h : x s = .ok a s') :
    (x >>= f) s = f a s' := by
  show EStateM.bind x f s = f a s'
  unfold EStateM.bind
  rw [h]

theorem bind_of_error {x : EStateM ε σ α} {f : α → EStateM ε σ β} {s s' : σ} {e : ε}
    (h : x s = .error e s') :
    (x >>= f) s = .error e s' := by
  show EStateM.bind x f s = .error e s'
  unfold EStateM.bind
  rw [h]

theorem get_bind (f : σ → EStateM ε σ β) (s : σ) : ((get : EStateM ε σ σ) >>= f) s = f s s := rfl

theorem set_bind (s' : σ) (f : PUnit → EStateM ε σ β) (s : σ) :
    ((set s' : EStateM ε σ PUnit) >>= f) s = f ⟨⟩ s' := rfl

/-- A sequence that succeeds has succeeded in each part. -/
theorem except_bind_eq_ok {x : Except ε α} {f : α → Except ε β} {b : β} (h : (x >>= f) = .ok b) :
    ∃ a, x = .ok a ∧ f a = .ok b := by
  cases x with
  | ok a => exact ⟨a, rfl, h⟩
  | error e => cases h

/-- A computation ends with an answer of one kind or with an error of another. -/
def Ends (P : α → Prop) (Q : ε → Prop) : Except ε α → Prop
  | .ok a => P a
  | .error e => Q e

theorem Ends.imp {P P' : α → Prop} {Q Q' : ε → Prop} {x : Except ε α} (h : Ends P Q x)
    (hok : ∀ a, P a → P' a) (herror : ∀ e, Q e → Q' e) : Ends P' Q' x := by
  cases x with
  | ok a => exact hok a h
  | error e => exact herror e h

theorem Ends.and {P P' : α → Prop} {Q Q' : ε → Prop} {x : Except ε α} (h : Ends P Q x)
    (h' : Ends P' Q' x) :
    Ends (fun a => P a ∧ P' a) (fun e => Q e ∧ Q' e) x := by
  cases x with
  | ok a => exact ⟨h, h'⟩
  | error e => exact ⟨h, h'⟩

theorem Ends.bind {P : α → Prop} {P' : β → Prop} {Q : ε → Prop} {x : Except ε α}
    {f : α → Except ε β} (h : Ends P Q x) (hf : ∀ a, P a → Ends P' Q (f a)) :
    Ends P' Q (x >>= f) := by
  cases x with
  | ok a => exact hf a h
  | error e => exact h

/-- A loop over a list succeeds if each turn does, from wherever the turns before it have led. `P`
says what still holds when the items in its argument are left. -/
theorem forM_of_turns {f : α → EStateM ε σ PUnit} {P : List α → σ → Prop}
    (turn : ∀ a rest s, P (a :: rest) s → ∃ s', f a s = .ok ⟨⟩ s' ∧ P rest s') :
    ∀ (items : List α) (s : σ), P items s → ∃ s', items.forM f s = .ok ⟨⟩ s' ∧ P [] s' := by
  intro items
  induction items with
  | nil => exact fun s h => ⟨s, rfl, h⟩
  | cons a rest ih =>
    intro s h
    obtain ⟨s₁, h₁, hP⟩ := turn a rest s h
    obtain ⟨s₂, h₂, hP'⟩ := ih s₁ hP
    refine ⟨s₂, ?_, hP'⟩
    show (f a >>= fun _ => rest.forM f) s = _
    rw [bind_of_ok h₁, h₂]

/-! ## Checking a run

Tests of an outcome that can be evaluated, and what a test that passes says of the run. -/

/-- Whether a run succeeds, with an answer and a state that pass. -/
def succeedsWith (p : α → σ → Bool) : EStateM.Result ε σ α → Bool
  | .ok a s => p a s
  | .error _ _ => false

theorem succeedsWith_iff {p : α → σ → Bool} {r : EStateM.Result ε σ α} :
    succeedsWith p r = true ↔ ∃ a s, r = .ok a s ∧ p a s = true := by
  cases r with
  | ok a s => exact ⟨fun h => ⟨a, s, rfl, h⟩, by rintro ⟨_, _, ⟨⟩, h⟩; exact h⟩
  | error e s => exact ⟨fun h => (by cases h), by rintro ⟨_, _, ⟨⟩, _⟩⟩

/-- Whether a run fails, with an error and a state that pass. -/
def failsWith (p : ε → σ → Bool) : EStateM.Result ε σ α → Bool
  | .ok _ _ => false
  | .error e s => p e s

theorem failsWith_iff {p : ε → σ → Bool} {r : EStateM.Result ε σ α} :
    failsWith p r = true ↔ ∃ e s, r = .error e s ∧ p e s = true := by
  cases r with
  | ok a s => exact ⟨fun h => (by cases h), by rintro ⟨_, _, ⟨⟩, _⟩⟩
  | error e s => exact ⟨fun h => ⟨e, s, rfl, h⟩, by rintro ⟨_, _, ⟨⟩, h⟩; exact h⟩

/-- Whether a computation succeeds with an answer that passes. -/
def yields (p : α → Bool) : Except ε α → Bool
  | .ok a => p a
  | .error _ => false

theorem yields_iff {p : α → Bool} {r : Except ε α} : yields p r = true ↔
    ∃ a, r = .ok a ∧ p a = true := by
  cases r with
  | ok a => exact ⟨fun h => ⟨a, rfl, h⟩, by rintro ⟨_, ⟨⟩, h⟩; exact h⟩
  | error e => exact ⟨fun h => (by cases h), by rintro ⟨_, ⟨⟩, _⟩⟩

end LiveLisp
