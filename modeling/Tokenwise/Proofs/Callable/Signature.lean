import Tokenwise.Callable.Curry

/-!
# Signatures, and calls by position

A **signature** is a list of parameters that can follow each other in a declaration
(`Parameter.Legal`): parameters for arguments by position come first, and behind one of them that
has a default all of them have one.

What currying counts in a signature is said here without going through it.  The first parameter in
the way is what is reported, and if there is none, the required ones are counted
(`Parameter.requiredCount_eq`).

That the number is the right one is a fact about calls.  `Parameter.bindings?` gives the arguments
of a call, all of them by position, to the parameters.  In a signature with nothing in the way the
required parameters are the first ones, and all that come behind them have a default
(`Parameter.Legal.exists_required_append`).  So arguments that are as many as the required
parameters go to these, one each, and none is left over (`Parameter.bindings?_required_append`).
-/

namespace Tokenwise

namespace Parameter

/-- Whether a parameter stands for any number of arguments. -/
def isVariadic (p : Parameter) : Bool :=
  p.kind == .variablePositional || p.kind == .variableKeyword

/-- Whether an argument can be passed for a parameter by its position. -/
def isPositional (p : Parameter) : Bool :=
  p.kind == .positionalOnly || p.kind == .positionalOrKeyword

/-- Whether an argument must be passed for a parameter, and can be by its position. -/
def isRequired (p : Parameter) : Bool :=
  p.isPositional && !p.hasDefault

/-- Whether a parameter does without an argument. -/
def isOptional (p : Parameter) : Bool :=
  p.hasDefault && !p.isVariadic

/-- Whether a parameter is in the way of currying. -/
def isInTheWay (p : Parameter) : Bool :=
  p.isVariadic || p.kind == .keywordOnly && !p.hasDefault

theorem isInTheWay_eq_false_iff {p : Parameter} :
    p.isInTheWay = false ↔ p.isRequired ∨ p.isOptional := by
  rcases p with ⟨kind, hasDefault⟩
  cases kind <;> cases hasDefault <;> decide

theorem exists_isInTheWay_or (parameters : List Parameter) :
    (∃ p ∈ parameters, p.isInTheWay) ∨ ∀ p ∈ parameters, p.isInTheWay = false := by
  by_cases h : ∃ p ∈ parameters, p.isInTheWay
  · exact .inl h
  · exact .inr fun p hp => Bool.eq_false_iff.mpr fun hway => h ⟨p, hp, hway⟩

/-- What is reported of a parameter in the way. -/
def obstacle (shown : String) (p : Parameter) : Fault :=
  if p.isVariadic then .variableArguments shown else .keywordRequired shown

theorem obstacle_cases (shown : String) (p : Parameter) :
    p.obstacle shown = .variableArguments shown ∨ p.obstacle shown = .keywordRequired shown := by
  rw [obstacle]
  split
  · exact .inl rfl
  · exact .inr rfl

theorem requiredCount_cons (shown : String) (p : Parameter) (more : List Parameter) :
    requiredCount shown (p :: more)
      = if p.isInTheWay then .error (p.obstacle shown)
        else (· + if p.isRequired then 1 else 0) <$> requiredCount shown more := by
  rcases p with ⟨kind, hasDefault⟩
  cases kind <;> cases hasDefault <;>
    simp [requiredCount, isInTheWay, isVariadic, isRequired, isPositional, obstacle]

/-- **The first parameter in the way is reported**, or else the required ones are counted. -/
theorem requiredCount_eq (shown : String) (parameters : List Parameter) :
    requiredCount shown parameters
      = match parameters.find? isInTheWay with
        | some p => .error (p.obstacle shown)
        | none => .ok (parameters.countP isRequired) := by
  induction parameters with
  | nil => rfl
  | cons p more ih =>
      rw [requiredCount_cons]
      by_cases h : p.isInTheWay
      · rw [if_pos h, List.find?_cons_of_pos h]
      · rw [if_neg h, List.find?_cons_of_neg h, List.countP_cons, ih]
        cases more.find? isInTheWay <;> rfl

/-- The place of a kind among the others in a declaration. -/
def Kind.rank : Kind → Nat
  | positionalOnly => 0
  | positionalOrKeyword => 1
  | variablePositional => 2
  | keywordOnly => 3
  | variableKeyword => 4

/-- Whether a parameter may come somewhere before another one: the kinds are in order, there is
one variadic parameter of a kind at most, and behind a default all parameters for arguments by
position have one. -/
def MayPrecede (p q : Parameter) : Prop :=
  p.kind.rank ≤ q.kind.rank ∧ ¬ (p.isVariadic ∧ p.kind = q.kind)
    ∧ (q.isPositional → p.hasDefault → q.hasDefault)

instance (p q : Parameter) : Decidable (MayPrecede p q) :=
  inferInstanceAs (Decidable (_ ∧ _ ∧ _))

/-- Whether the parameters are those of a declaration. -/
structure Legal (parameters : List Parameter) : Prop where
  inOrder : parameters.Pairwise MayPrecede
  variadic_hasDefault : ∀ p ∈ parameters, p.isVariadic → p.hasDefault = false

instance (parameters : List Parameter) : Decidable (Legal parameters) :=
  decidable_of_iff (parameters.Pairwise MayPrecede
    ∧ ∀ p ∈ parameters, p.isVariadic → p.hasDefault = false)
    ⟨fun h => ⟨h.1, h.2⟩, fun h => ⟨h.inOrder, h.variadic_hasDefault⟩⟩

/-- What a parameter stands for in a call. -/
inductive Binding (α : Type) where
  | argument (v : α)
  /-- All arguments that are left. -/
  | remaining (vs : List α)
  | default

/-- What the parameters stand for when the arguments are passed by position.  There is no such call
if a parameter without a default gets no argument, or if arguments are left over. -/
def bindings? {α : Type} : List Parameter → List α → Option (List (Binding α))
  | [], [] => some []
  | [], _ :: _ => none
  | ⟨.variablePositional, _⟩ :: more, vs => (bindings? more []).map (.remaining vs :: ·)
  | ⟨.variableKeyword, _⟩ :: more, vs => (bindings? more vs).map (.remaining [] :: ·)
  | ⟨.keywordOnly, hasDefault⟩ :: more, vs =>
      if hasDefault then (bindings? more vs).map (.default :: ·) else none
  | _ :: more, v :: vs => (bindings? more vs).map (.argument v :: ·)
  | ⟨_, hasDefault⟩ :: more, [] =>
      if hasDefault then (bindings? more []).map (.default :: ·) else none

section Bindings

variable {α : Type} {p : Parameter} {required optional : List Parameter}
  {arguments : List α}

theorem bindings?_cons_of_required (h : p.isRequired) (more : List Parameter) (v : α)
    (vs : List α) :
    bindings? (p :: more) (v :: vs) = (bindings? more vs).map (.argument v :: ·) := by
  rcases p with ⟨kind, hasDefault⟩
  cases kind <;> simp_all [bindings?, isRequired, isPositional]

theorem bindings?_nil_of_required (h : p.isRequired) (more : List Parameter) :
    bindings? (α := α) (p :: more) [] = none := by
  rcases p with ⟨kind, hasDefault⟩
  cases kind <;> simp_all [bindings?, isRequired, isPositional]

theorem bindings?_cons_of_optional (h : p.isOptional) (more : List Parameter) :
    bindings? (α := α) (p :: more) [] = (bindings? more []).map (.default :: ·) := by
  rcases p with ⟨kind, hasDefault⟩
  cases kind <;> simp_all [bindings?, isOptional, isVariadic]

theorem bindings?_of_optional (h : ∀ p ∈ optional, p.isOptional) :
    bindings? (α := α) optional [] = some (optional.map fun _ => .default) := by
  induction optional with
  | nil => rfl
  | cons p optional ih =>
      obtain ⟨hfirst, hmore⟩ := List.forall_mem_cons.mp h
      rw [bindings?_cons_of_optional hfirst, ih hmore]
      rfl

/-- As many arguments as there are required parameters go to these. -/
theorem bindings?_required_append (hrequired : ∀ p ∈ required, p.isRequired)
    (hoptional : ∀ p ∈ optional, p.isOptional) (hlength : arguments.length = required.length) :
    bindings? (required ++ optional) arguments
      = some (arguments.map .argument ++ optional.map fun _ => .default) := by
  induction required generalizing arguments with
  | nil =>
      obtain rfl : arguments = [] := List.length_eq_zero_iff.mp hlength
      exact bindings?_of_optional hoptional
  | cons p required ih =>
      obtain ⟨hfirst, hmore⟩ := List.forall_mem_cons.mp hrequired
      obtain ⟨v, vs, rfl⟩ := List.exists_cons_of_length_eq_add_one hlength
      rw [List.cons_append, bindings?_cons_of_required hfirst, ih hmore (Nat.succ.inj hlength)]
      rfl

/-- A required parameter that no argument is left for makes the call impossible. -/
theorem bindings?_required_append_of_missing (hrequired : ∀ p ∈ required, p.isRequired)
    (hlength : arguments.length < required.length) :
    bindings? (required ++ optional) arguments = none := by
  induction required generalizing arguments with
  | nil => cases hlength
  | cons p required ih =>
      obtain ⟨hfirst, hmore⟩ := List.forall_mem_cons.mp hrequired
      rw [List.cons_append]
      cases arguments with
      | nil => exact bindings?_nil_of_required hfirst _
      | cons v vs =>
          rw [bindings?_cons_of_required hfirst, ih hmore (Nat.lt_of_succ_lt_succ hlength)]
          rfl

end Bindings

namespace Legal

variable {p : Parameter} {parameters : List Parameter}

theorem tail (h : Legal (p :: parameters)) : Legal parameters :=
  ⟨(List.pairwise_cons.mp h.inOrder).2, (List.forall_mem_cons.mp h.variadic_hasDefault).2⟩

/-- Behind a parameter with a default all are optional, unless they are in the way. -/
theorem isOptional_of_mem (h : Legal (p :: parameters)) (hdefault : p.hasDefault)
    {q : Parameter} (hq : q ∈ parameters) (hclear : q.isInTheWay = false) : q.isOptional := by
  obtain ⟨-, -, hlater⟩ := (List.pairwise_cons.mp h.inOrder).1 q hq
  rcases isInTheWay_eq_false_iff.mp hclear with hrequired | hoptional
  · obtain ⟨hpositional, hnone⟩ := Bool.and_eq_true_iff.mp hrequired
    rw [hlater hpositional hdefault] at hnone
    cases hnone
  · exact hoptional

/-- **The required parameters come first**, if none is in the way. -/
theorem exists_required_append (h : Legal parameters)
    (hclear : ∀ p ∈ parameters, p.isInTheWay = false) :
    ∃ required optional, parameters = required ++ optional
      ∧ (∀ p ∈ required, p.isRequired) ∧ ∀ p ∈ optional, p.isOptional := by
  induction parameters with
  | nil => exact ⟨[], [], rfl, nofun, nofun⟩
  | cons p more ih =>
      obtain ⟨hfirst, hmore⟩ := List.forall_mem_cons.mp hclear
      rcases isInTheWay_eq_false_iff.mp hfirst with hrequired | hoptional
      · obtain ⟨required, optional, rfl, hall, hothers⟩ := ih h.tail hmore
        exact ⟨p :: required, optional, rfl, List.forall_mem_cons.mpr ⟨hrequired, hall⟩, hothers⟩
      · have hdefault : p.hasDefault := (Bool.and_eq_true_iff.mp hoptional).1
        refine ⟨[], p :: more, rfl, nofun, List.forall_mem_cons.mpr ⟨hoptional, ?_⟩⟩
        intro q hq
        exact h.isOptional_of_mem hdefault hq (hmore q hq)

end Legal

theorem countP_required_append {required optional : List Parameter}
    (hrequired : ∀ p ∈ required, p.isRequired) (hoptional : ∀ p ∈ optional, p.isOptional) :
    (required ++ optional).countP isRequired = required.length := by
  have hnone : ∀ p ∈ optional, ¬ p.isRequired := by
    intro p hp hrequired
    have hdefault : p.hasDefault := (Bool.and_eq_true_iff.mp (hoptional p hp)).1
    simp [isRequired, hdefault] at hrequired
  rw [List.countP_append, List.countP_eq_length.mpr hrequired, List.countP_eq_zero.mpr hnone,
    Nat.add_zero]

end Parameter

end Tokenwise
