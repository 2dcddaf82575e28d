/-
  Shapes: what is known of the values that a frame has on the stack before each of its instructions.
  Sound code has a shape for every place that can be reached in it, every instruction finds the
  operands it needs and leaves a shape that the next one expects, and jumps stay inside.

  A segment is typed by the shape it begins with and the places after it that it can come out at
  (`Typed`). Segments are put together by `Typed.append`, which is all that a compiler's case needs.
-/
import LiveLisp.Proofs.Ideal.Rename

namespace LiveLisp

/-- The values of one frame, top first: some are known exactly, of the others nothing is. -/
abbrev Shape := List (Option Value)

namespace Shape

def Matches : Shape → List Value → Prop
  | [], [] => True
  | mark :: shape, v :: values => (∀ u, mark = some u → v = u) ∧ Matches shape values
  | _, _ => False

/-- So many values, of which nothing is known. -/
def any (n : Nat) : Shape :=
  List.replicate n none

theorem not_mem_any {n : Nat} {v : Value} : some v ∉ any n := by
  simp [any]

theorem Matches.length_eq {shape : Shape} {values : List Value} (h : Matches shape values) :
    values.length = shape.length := by
  induction shape generalizing values with
  | nil =>
    cases values with
    | nil => rfl
    | cons => exact h.elim
  | cons mark shape ih =>
    cases values with
    | nil => exact h.elim
    | cons v values => rw [List.length_cons, List.length_cons, ih h.2]

theorem Matches.push {shape : Shape} {values : List Value} (h : Matches shape values) (v : Value) :
    Matches (none :: shape) (v :: values) := by
  refine ⟨?_, h⟩
  intro u hu
  cases hu

theorem Matches.cons_inv {mark : Option Value} {shape : Shape} {values : List Value}
    (h : Matches (mark :: shape) values) :
    ∃ v rest, values = v :: rest ∧ (∀ u, mark = some u → v = u) ∧ Matches shape rest := by
  cases values with
  | nil => exact h.elim
  | cons v rest => exact ⟨v, rest, rfl, h.1, h.2⟩

theorem Matches.drop {shape : Shape} {values : List Value} (h : Matches shape values) (n : Nat) :
    Matches (shape.drop n) (values.drop n) := by
  induction n generalizing shape values with
  | zero => exact h
  | succ n ih =>
    cases shape with
    | nil =>
      cases values with
      | nil => exact h
      | cons => exact h.elim
    | cons mark shape =>
      cases values with
      | nil => exact h.elim
      | cons v values => exact ih h.2

end Shape

/-- An instruction finds its operands, and wherever it may go on, at this distance, the shape it
leaves is known. -/
def Op.Fits (next : Int → Shape → Prop) (shape : Shape) : Op → Prop
  | .loadConstant v => v.closures = [] ∧ next 1 (none :: shape)
  | .push v => v.closures = [] ∧ next 1 (some v :: shape)
  | .pop => ∃ mark rest, shape = mark :: rest ∧ next 1 rest
  | .nameLookup _ => next 1 (none :: shape)
  | .functionLookup _ => next 1 (none :: shape)
  | .storeNew _ => shape ≠ [] ∧ next 1 shape
  | .store _ => shape ≠ [] ∧ next 1 shape
  | .buildFunction _ =>
    ∃ code params rest, shape = some (.code code) :: some (.params params) :: rest ∧
      next 1 (none :: rest)
  | .call argc => argc < shape.length ∧ next 1 (none :: shape.drop (argc + 1))
  -- what a host answers is left for the instruction after
  | .tailCall argc => shape.length = argc + 1 ∧ next 1 [none]
  | .jump offset => next offset shape
  | .jumpIfNot offset => ∃ mark rest, shape = mark :: rest ∧ next 1 rest ∧ next offset rest
  | .ret => shape.length = 1

theorem Op.Fits.mono {next next' : Int → Shape → Prop} {shape : Shape} {op : Op}
    (h : op.Fits next shape) (hnext : ∀ d shape', next d shape' → next' d shape') :
    op.Fits next' shape := by
  cases op with
  | loadConstant v => exact ⟨h.1, hnext _ _ h.2⟩
  | push v => exact ⟨h.1, hnext _ _ h.2⟩
  | pop =>
    obtain ⟨mark, rest, hshape, hrest⟩ := h
    exact ⟨mark, rest, hshape, hnext _ _ hrest⟩
  | nameLookup name => exact hnext _ _ h
  | functionLookup name => exact hnext _ _ h
  | storeNew name => exact ⟨h.1, hnext _ _ h.2⟩
  | store name => exact ⟨h.1, hnext _ _ h.2⟩
  | buildFunction name =>
    obtain ⟨code, params, rest, hshape, hrest⟩ := h
    exact ⟨code, params, rest, hshape, hnext _ _ hrest⟩
  | call argc => exact ⟨h.1, hnext _ _ h.2⟩
  | tailCall argc => exact ⟨h.1, hnext _ _ h.2⟩
  | jump offset => exact hnext _ _ h
  | jumpIfNot offset =>
    obtain ⟨mark, rest, hshape, hthen, helse⟩ := h
    exact ⟨mark, rest, hshape, hnext _ _ hthen, hnext _ _ helse⟩
  | ret => exact h

/-- The shapes at a distance from one place. -/
def near (At : Nat → Shape → Prop) (pc : Nat) (d : Int) (shape : Shape) : Prop :=
  ∃ target : Nat, (target : Int) = pc + d ∧ At target shape

/-- Code with a shape for every place that it can be at. A body waiting to be made a function is
sound itself. -/
inductive Code.Sound : Code → Prop where
  | intro {code : Code} (At : Nat → Shape → Prop) (start : At 0 [])
      (fits : ∀ pc shape, At pc shape → ∃ i, code.instructions[pc]? = some i ∧
        i.op.Fits (near At pc) shape)
      (bodies : ∀ pc shape, At pc shape → ∀ body, some (Value.code body) ∈ shape → Sound body) :
        Sound code

/-- What `At` has to be for the code it is about. -/
structure Code.Shaped (code : Code) (At : Nat → Shape → Prop) : Prop where
  start : At 0 []
  fits : ∀ pc shape, At pc shape → ∃ i, code.instructions[pc]? = some i ∧
    i.op.Fits (near At pc) shape
  bodies : ∀ pc shape, At pc shape → ∀ body, some (Value.code body) ∈ shape → body.Sound

theorem Code.Sound.shaped {code : Code} (h : code.Sound) : ∃ At, code.Shaped At := by
  obtain ⟨At, start, fits, bodies⟩ := h
  exact ⟨At, start, fits, bodies⟩

/-! ## Segments -/

/-- The segment starts with shape `a`, and comes out at a place after it and with a shape that `Out`
allows. -/
def Typed (a : Shape) (is : List Instruction) (Out : Nat → Shape → Prop) : Prop :=
  ∃ At : Nat → Shape → Prop, At 0 a ∧
    (∀ pc shape, At pc shape → pc < is.length →
      (∃ i, is[pc]? = some i ∧ i.op.Fits (near At pc) shape) ∧
        ∀ body, some (.code body) ∈ shape → body.Sound) ∧
    ∀ pc shape, At pc shape → is.length ≤ pc → Out (pc - is.length) shape

/-- Out at the end, with this shape. -/
def exit (shape : Shape) (pc : Nat) (shape' : Shape) : Prop :=
  pc = 0 ∧ shape' = shape

namespace Typed

variable {a b : Shape} {is js : List Instruction} {Out Out' : Nat → Shape → Prop}

theorem mono (h : Typed a is Out) (hout : ∀ pc shape, Out pc shape → Out' pc shape) :
    Typed a is Out' := by
  obtain ⟨At, start, inside, leaves⟩ := h
  exact ⟨At, start, inside, fun pc shape hat hpc => hout _ _ (leaves pc shape hat hpc)⟩

theorem nil (h : Out 0 a) : Typed a [] Out := by
  refine ⟨fun pc shape => pc = 0 ∧ shape = a, ⟨rfl, rfl⟩, fun pc shape _ hpc =>
    absurd hpc (Nat.not_lt_zero _), ?_⟩
  rintro pc shape ⟨rfl, rfl⟩ _
  exact h

/-- One segment after the other. What comes out of the first either enters the second or passes it.
-/
theorem append (h₁ : Typed a is Out) (h₂ : Typed b js Out')
    (hout : ∀ pc shape, Out pc shape → (pc = 0 ∧ shape = b) ∨
      (js.length ≤ pc ∧ Out' (pc - js.length) shape)) :
    Typed a (is ++ js) Out' := by
  obtain ⟨At₁, start₁, inside₁, leaves₁⟩ := h₁
  obtain ⟨At₂, start₂, inside₂, leaves₂⟩ := h₂
  -- the places of the second segment come after those of the first; beyond both are those that
  -- `Out'` allows
  let At : Nat → Shape → Prop := fun pc shape =>
    (pc < is.length ∧ At₁ pc shape) ∨
    (∃ q, pc = is.length + q ∧ (At₂ q shape ∨ js.length ≤ q ∧ Out' (q - js.length) shape))
  have hfirst : ∀ pc shape, At₁ pc shape → At pc shape := by
    intro pc shape hat
    by_cases hpc : pc < is.length
    · exact .inl ⟨hpc, hat⟩
    · refine .inr ⟨pc - is.length, by omega, ?_⟩
      rcases hout _ _ (leaves₁ pc shape hat (by omega)) with ⟨hzero, rfl⟩ | hpast
      · rw [hzero]
        exact .inl start₂
      · exact .inr hpast
  refine ⟨At, hfirst 0 a start₁, ?_, ?_⟩
  · rintro pc shape (⟨hpc, hat⟩ | ⟨q, rfl, hat | ⟨hq, -⟩⟩) hlt
    · obtain ⟨⟨i, hi, hfits⟩, hbodies⟩ := inside₁ pc shape hat hpc
      refine ⟨⟨i, by rw [List.getElem?_append_left hpc, hi], hfits.mono ?_⟩, hbodies⟩
      rintro d shape' ⟨target, htarget, hat'⟩
      exact ⟨target, htarget, hfirst target shape' hat'⟩
    · rw [List.length_append] at hlt
      obtain ⟨⟨i, hi, hfits⟩, hbodies⟩ := inside₂ q shape hat (by omega)
      refine ⟨⟨i, by rw [List.getElem?_append_right (Nat.le_add_right ..), Nat.add_sub_cancel_left,
        hi], hfits.mono ?_⟩,
        hbodies⟩
      rintro d shape' ⟨target, htarget, hat'⟩
      exact ⟨is.length + target, by omega, .inr ⟨target, rfl, .inl hat'⟩⟩
    · rw [List.length_append] at hlt
      omega
  · rintro pc shape (⟨hpc, hat⟩ | ⟨q, rfl, hat | ⟨hq, hpast⟩⟩) hle
    · rw [List.length_append] at hle
      omega
    · rw [List.length_append] at hle ⊢
      have := leaves₂ q shape hat (by omega)
      rwa [show is.length + q - (is.length + js.length) = q - js.length by omega]
    · rw [List.length_append]
      rwa [show is.length + q - (is.length + js.length) = q - js.length by omega]

/-- One segment after the other, the first with a single way out. -/
theorem seq (h₁ : Typed a is (exit b)) (h₂ : Typed b js Out) : Typed a (is ++ js) Out :=
  h₁.append h₂ fun _ _ h => .inl h

theorem single {i : Instruction}
    (hfits : i.op.Fits (fun d shape => ∃ q : Nat, d = q + 1 ∧ Out q shape) a)
    (hbodies : ∀ body, some (.code body) ∈ a → body.Sound) : Typed a [i] Out := by
  let At : Nat → Shape → Prop := fun pc shape => (pc = 0 ∧ shape = a) ∨
    ∃ q, pc = q + 1 ∧ Out q shape
  refine ⟨At, .inl ⟨rfl, rfl⟩, ?_, ?_⟩
  · rintro pc shape (⟨rfl, rfl⟩ | ⟨q, rfl, -⟩) hpc
    · refine ⟨⟨i, rfl, hfits.mono ?_⟩, hbodies⟩
      rintro d shape' ⟨q, rfl, hout⟩
      exact ⟨q + 1, by omega, .inr ⟨q, rfl, hout⟩⟩
    · simp at hpc
  · rintro pc shape (⟨rfl, rfl⟩ | ⟨q, rfl, hout⟩) hpc
    · simp at hpc
    · exact hout

/-- An instruction that only goes on to the next. -/
theorem plain {i : Instruction} (hfits : i.op.Fits (fun d shape => d = 1 ∧ shape = b) a)
    (hbodies : ∀ body, some (.code body) ∈ a → body.Sound) : Typed a [i] (exit b) := by
  refine single (hfits.mono ?_) hbodies
  rintro d shape ⟨rfl, rfl⟩
  exact ⟨0, rfl, rfl, rfl⟩

theorem sound {id : CodeId} (h : Typed [] is fun _ _ => False) : Code.Sound ⟨id, is⟩ := by
  obtain ⟨At, start, inside, leaves⟩ := h
  have hinside : ∀ pc shape, At pc shape → pc < is.length := fun pc shape hat =>
    Nat.lt_of_not_le fun hle => leaves pc shape hat hle
  exact ⟨At, start, fun pc shape hat => (inside pc shape hat (hinside pc shape hat)).1,
    fun pc shape hat => (inside pc shape hat (hinside pc shape hat)).2⟩

end Typed

end LiveLisp
