import Tokenwise.Callable.Stock
import Tokenwise.Proofs.Callable.Signature

/-!
# Arguments one at a time

A curried function collects its arguments and calls the function that it stands for with the last
one (`Value.supply`).  Until then nothing is called, and what it leads to is a function again
(`Value.callEach_awaiting`).

Each of these functions can be kept and applied any number of times.  In a history of applications
an object made before is applied to one more argument in each step, and the arguments that have led
to an object are its chain (`chains?`).  Whatever is applied in between, an object is what its own
chain makes of it: the call of the function if the chain is complete, and otherwise nothing but
another function (`Value.made_eq`).  A step looks at one earlier object only
(`Value.applyMade_map_supply`), and the rest is induction on the history.

How many arguments are collected, if it is not said, is the number of required parameters in the
signature (`curry_of_parameters`).  The main theorem puts this together with what a call by position
does.
-/

namespace Tokenwise

variable {Op : Type} [Operations Op]

namespace Value

variable {f : Value Op} {arity : Nat} {given more : List (Value Op)}

/-- A function of `arity` arguments that has been given some of them: it is called with the last
one. -/
def supply (f : Value Op) (arity : Nat) (given : List (Value Op)) : Run Op (Value Op) :=
  if given.length = arity then f.call given else return .function (.awaiting f arity given)

theorem supply_of_missing (h : given.length ≠ arity) :
    f.supply arity given = return .function (.awaiting f arity given) :=
  if_neg h

theorem supply_of_complete (h : given.length = arity) : f.supply arity given = f.call given :=
  if_pos h

theorem call_awaiting {v : Value Op} :
    (function (.awaiting f arity given)).call [v] = f.supply arity (given ++ [v]) := by
  rw [call, supply, List.length_append, List.length_singleton]

/-- Gives a function the arguments one at a time. -/
def callEach (f : Value Op) (arguments : List (Value Op)) : Run Op (Value Op) :=
  arguments.foldlM (fun g v => g.call [v]) f

theorem callEach_awaiting (hmissing : given.length < arity)
    (hcount : given.length + more.length ≤ arity) :
    (function (.awaiting f arity given)).callEach more = f.supply arity (given ++ more) := by
  induction more generalizing given with
  | nil => rw [List.append_nil, supply_of_missing (Nat.ne_of_lt hmissing), callEach, List.foldlM_nil]
  | cons v more ih =>
      rw [callEach, List.foldlM_cons, call_awaiting]
      rw [List.length_cons] at hcount
      have hgiven : (given ++ [v]).length = given.length + 1 := List.length_append
      by_cases hlast : (given ++ [v]).length = arity
      · obtain rfl : more = [] := List.length_eq_zero_iff.mp (by omega)
        simp only [List.foldlM_nil, bind_pure]
      · rw [supply_of_missing hlast, pure_bind]
        have hnext : (given ++ [v]).length < arity := by omega
        have hrest : (given ++ [v]).length + more.length ≤ arity := by omega
        simpa only [callEach, List.append_assoc, List.singleton_append] using ih hnext hrest

end Value

section History

variable {α : Type} {arity i : Nat} {v : α} {chains next : List (List α)}

/-- The chains of the objects after one more application: of object `i` to `v`, if this object is
there and awaits one of `arity` arguments. -/
def extendChains? (arity : Nat) (chains : List (List α)) : Nat × α → Option (List (List α))
  | (i, v) => do
      let given ← chains[i]?
      if given.length < arity then some (chains ++ [given ++ [v]]) else none

/-- The chains of the objects in a history that starts with one object, without arguments yet.  A
history applies nothing but objects made before that await one of `arity` arguments. -/
def chains? (arity : Nat) (history : List (Nat × α)) : Option (List (List α)) :=
  history.foldlM (extendChains? arity) [[]]

theorem extendChains?_eq_some_iff :
    extendChains? arity chains (i, v) = some next
      ↔ ∃ given, chains[i]? = some given ∧ given.length < arity
          ∧ chains ++ [given ++ [v]] = next := by
  simp [extendChains?, Option.bind_eq_some_iff]

end History

namespace Value

/-- Applies one of the objects made before. -/
def applyMade (made : List (Run Op (Value Op))) (i : Nat) (v : Value Op) : Run Op (Value Op) :=
  match made[i]? with
  | some ⟨_, .done g⟩ => g.call [v]
  | _ => Run.raise .notCallable

/-- What the applications of a history make, one after another, with `g` as the first object. -/
def made (g : Value Op) (history : List (Nat × Value Op)) : List (Run Op (Value Op)) :=
  history.foldl (fun made step => made ++ [applyMade made step.1 step.2]) [pure g]

variable {f : Value Op} {arity i : Nat} {given : List (Value Op)} {chains : List (List (Value Op))}
  {history : List (Nat × Value Op)}

/-- An object that awaits an argument makes what its chain makes with this argument. -/
theorem applyMade_map_supply (hobject : chains[i]? = some given) (hmissing : given.length < arity)
    (v : Value Op) :
    applyMade (chains.map (f.supply arity)) i v = f.supply arity (given ++ [v]) := by
  have hmade : (chains.map (f.supply arity))[i]? = some (f.supply arity given) := by
    rw [List.getElem?_map, hobject]
    rfl
  rw [applyMade, hmade, supply_of_missing (Nat.ne_of_lt hmissing), ← call_awaiting]
  rfl

theorem foldl_applyMade {final : List (List (Value Op))}
    (h : history.foldlM (extendChains? arity) chains = some final) :
    history.foldl (fun made step => made ++ [applyMade made step.1 step.2])
        (chains.map (f.supply arity))
      = final.map (f.supply arity) := by
  induction history generalizing chains with
  | nil =>
      obtain rfl : chains = final := Option.some.inj h
      rfl
  | cons step history ih =>
      rw [List.foldlM_cons] at h
      obtain ⟨next, hstep, hmore⟩ := Option.bind_eq_some_iff.mp h
      obtain ⟨given, hobject, hmissing, rfl⟩ := extendChains?_eq_some_iff.mp hstep
      rw [List.foldl_cons, applyMade_map_supply hobject hmissing, ← ih hmore, List.map_append]
      rfl

/-- **Each object is what its own chain makes of it.** -/
theorem made_eq (harity : arity ≠ 0) (h : chains? arity history = some chains) :
    (function (.awaiting f arity [])).made history = chains.map (f.supply arity) := by
  have hmissing : ([] : List (Value Op)).length ≠ arity := harity.symm
  rw [← foldl_applyMade h, List.map_singleton, supply_of_missing hmissing]
  rfl

end Value

open Value

/-- Whether `g` takes `arity` arguments of `f` one at a time. -/
structure Value.TakesEach (f : Value Op) (arity : Nat) (g : Value Op) : Prop where
  /-- Fewer arguments call nothing.  They lead to a function, and `f` is called when this one has
  been given what is missing. -/
  of_arguments : ∀ given, given.length < arity → ∃ awaiting,
    g.callEach given = pure (function awaiting)
      ∧ ∀ more, given.length + more.length = arity →
          (function awaiting).callEach more = f.call (given ++ more)
  /-- In a history each complete chain calls `f`, once, and no other one calls anything. -/
  of_history : ∀ history chains, chains? arity history = some chains →
    g.made history = chains.map (f.supply arity)

theorem Value.takesEach_awaiting {f : Value Op} {arity : Nat} (harity : arity ≠ 0) :
    f.TakesEach arity (function (.awaiting f arity [])) where
  of_arguments given hgiven := by
    have hstart : ([] : List (Value Op)).length < arity := Nat.pos_of_ne_zero harity
    have hcount : ([] : List (Value Op)).length + given.length ≤ arity := by
      rw [List.length_nil, Nat.zero_add]
      exact Nat.le_of_lt hgiven
    refine ⟨.awaiting f arity given, ?_, ?_⟩
    · rw [callEach_awaiting hstart hcount, List.nil_append, supply_of_missing (Nat.ne_of_lt hgiven)]
    · intro more hmore
      have hcomplete : (given ++ more).length = arity := by rw [List.length_append, hmore]
      rw [callEach_awaiting hgiven (Nat.le_of_eq hmore), supply_of_complete hcomplete]
  of_history _ _ h := made_eq harity h

open Parameter

variable {f : Value Op} {parameters : List Parameter}

theorem curry_of_requiredCount {count : Nat} (h : f.requiredCount = .ok count) :
    curry f = if count = 0 then .error .nothingToCurry
      else .ok (function (.awaiting f count [])) := by
  have hpositive : (count : Int) < 1 ↔ count = 0 := by omega
  rw [curry, h]
  change (if (count : Int) < 1 then _ else Except.ok (function (.awaiting f count []))) = _
  simp only [hpositive]

theorem curry_of_parameters (hknown : f.parameters? = some parameters) :
    curry f = match parameters.find? isInTheWay with
      | some p => .error (p.obstacle f.inspect)
      | none =>
          if parameters.countP isRequired = 0 then .error .nothingToCurry
          else .ok (function (.awaiting f (parameters.countP isRequired) [])) := by
  have hcount : f.requiredCount = Parameter.requiredCount f.inspect parameters := by
    rw [Value.requiredCount, hknown]
  rw [requiredCount_eq] at hcount
  cases hfind : parameters.find? isInTheWay with
  | some p =>
      rw [hfind] at hcount
      rw [curry, hcount]
      rfl
  | none =>
      rw [hfind] at hcount
      exact curry_of_requiredCount hcount

theorem curry_of_inTheWay (hknown : f.parameters? = some parameters)
    (h : ∃ p ∈ parameters, p.isInTheWay) :
    curry f = .error (.variableArguments f.inspect)
      ∨ curry f = .error (.keywordRequired f.inspect) := by
  obtain ⟨p, hfind⟩ := Option.isSome_iff_exists.mp (List.find?_isSome.mpr h)
  rw [curry_of_parameters hknown, hfind]
  exact (obstacle_cases f.inspect p).imp (congrArg _) (congrArg _)

theorem curry_of_clear (hknown : f.parameters? = some parameters)
    (hclear : ∀ p ∈ parameters, p.isInTheWay = false) :
    curry f = if parameters.countP isRequired = 0 then .error .nothingToCurry
      else .ok (function (.awaiting f (parameters.countP isRequired) [])) := by
  have hfind : parameters.find? isInTheWay = none :=
    List.find?_eq_none.mpr fun p hp => Bool.eq_false_iff.mp (hclear p hp)
  rw [curry_of_parameters hknown, hfind]

/-- A fault of the signature is reported just when a parameter is in the way. -/
theorem exists_isInTheWay_iff (hknown : f.parameters? = some parameters) :
    (∃ p ∈ parameters, p.isInTheWay)
      ↔ curry f = .error (.variableArguments f.inspect)
        ∨ curry f = .error (.keywordRequired f.inspect) := by
  constructor
  · exact curry_of_inTheWay hknown
  · intro hfault
    rcases exists_isInTheWay_or parameters with h | hclear
    · exact h
    · rw [curry_of_clear hknown hclear] at hfault
      split at hfault <;> simp at hfault

/-- Otherwise there is nothing to curry just when no parameter is required. -/
theorem curry_eq_nothingToCurry_iff (hknown : f.parameters? = some parameters) :
    curry f = .error .nothingToCurry
      ↔ ∀ p ∈ parameters, p.isInTheWay = false ∧ p.isRequired = false := by
  rcases exists_isInTheWay_or parameters with h | hclear
  · constructor
    · intro hnothing
      rcases curry_of_inTheWay hknown h with hfault | hfault <;> simp [hfault] at hnothing
    · intro hnone
      obtain ⟨p, hp, hway⟩ := h
      rw [(hnone p hp).1] at hway
      cases hway
  · have hcount : parameters.countP isRequired = 0 ↔ ∀ p ∈ parameters, p.isRequired = false := by
      simp only [List.countP_eq_zero, Bool.not_eq_true]
    rw [curry_of_clear hknown hclear]
    constructor
    · intro hnothing p hp
      split at hnothing
      case isTrue hzero => exact ⟨hclear p hp, hcount.mp hzero p hp⟩
      case isFalse => cases hnothing
    · intro hnone
      exact if_pos (hcount.mpr fun p hp => (hnone p hp).2)

theorem exists_curry_of_required (hknown : f.parameters? = some parameters)
    (hclear : ∀ p ∈ parameters, p.isInTheWay = false) (hrequired : ∃ p ∈ parameters, p.isRequired) :
    ∃ g, curry f = .ok g ∧ f.TakesEach (parameters.countP isRequired) g := by
  have hcount : parameters.countP isRequired ≠ 0 :=
    Nat.ne_of_gt (List.countP_pos_iff.mpr hrequired)
  refine ⟨_, ?_, takesEach_awaiting hcount⟩
  rw [curry_of_clear hknown hclear, if_neg hcount]

/-- **A curried function is called once, and the call is complete.**  Take a function whose
parameters are known and are those of a declaration.  It cannot be curried, because of its
signature, just when a parameter is variadic or is for a keyword and has no default; and otherwise
there is nothing to curry just when no parameter for arguments by position lacks a default.  In all
other cases currying gives a function that takes as many arguments as there are such parameters.
Fewer of them call nothing, and with the last one the function is called with all of them, in their
order, whatever else has been applied in between.  In this call each required parameter gets one of
the arguments, and all others have their defaults; fewer arguments would not do. -/
theorem curry_awaits_required_arguments (hknown : f.parameters? = some parameters)
    (hlegal : Legal parameters) :
    ((∃ p ∈ parameters, p.isInTheWay)
        ↔ curry f = .error (.variableArguments f.inspect)
          ∨ curry f = .error (.keywordRequired f.inspect))
      ∧ (curry f = .error .nothingToCurry
          ↔ ∀ p ∈ parameters, p.isInTheWay = false ∧ p.isRequired = false)
      ∧ ((∀ p ∈ parameters, p.isInTheWay = false) → (∃ p ∈ parameters, p.isRequired) →
          (∃ g, curry f = .ok g ∧ f.TakesEach (parameters.countP isRequired) g)
          ∧ ∃ required optional, parameters = required ++ optional
              ∧ (∀ p ∈ required, p.isRequired) ∧ (∀ p ∈ optional, p.isOptional)
              ∧ ∀ arguments : List (Value Op),
                  (arguments.length = parameters.countP isRequired →
                    bindings? parameters arguments
                      = some (arguments.map .argument ++ optional.map fun _ => .default))
                  ∧ (arguments.length < parameters.countP isRequired →
                    bindings? parameters arguments = none)) := by
  refine ⟨exists_isInTheWay_iff hknown, curry_eq_nothingToCurry_iff hknown, ?_⟩
  intro hclear hrequired
  refine ⟨exists_curry_of_required hknown hclear hrequired, ?_⟩
  obtain ⟨required, optional, rfl, hfirst, hothers⟩ := hlegal.exists_required_append hclear
  refine ⟨required, optional, rfl, hfirst, hothers, ?_⟩
  intro arguments
  rw [countP_required_append hfirst hothers]
  exact ⟨bindings?_required_append hfirst hothers, bindings?_required_append_of_missing hfirst⟩

/-- Two of four arguments are awaited, and a function that has been given one of them is applied
twice. -/
theorem two_of_four_arguments_awaited :
    let parameters : List Parameter := [⟨.positionalOnly, false⟩, ⟨.positionalOrKeyword, false⟩,
      ⟨.positionalOrKeyword, true⟩, ⟨.keywordOnly, true⟩]
    let f : Value Stock := (Stock.declared parameters).asValue
    let history : List (Nat × Value Stock) :=
      [(0, int 1), (1, text "a"), (0, int 2), (1, text "b")]
    f.parameters? = some parameters ∧ Legal parameters
      ∧ (∃ g, curry f = .ok g
          ∧ (g.made history)[2]? = some (pure (tuple [int 1, text "a"]))
          ∧ (g.made history)[4]? = some (pure (tuple [int 1, text "b"])))
      ∧ bindings? parameters [int 1, text "a"]
          = some [.argument (int 1 : Value Stock), .argument (text "a"), .default, .default] := by
  intro parameters f history
  have hknown : f.parameters? = some parameters := rfl
  have hlegal : Legal parameters := by decide
  obtain ⟨-, -, hrest⟩ := curry_awaits_required_arguments hknown hlegal
  obtain ⟨⟨g, hcurry, htakes⟩, -⟩ := hrest (by decide) (by decide)
  have hchains : chains? 2 history
      = some [[], [int 1], [int 1, text "a"], [int 2], [int 1, text "b"]] := rfl
  have hmade := htakes.of_history history _ hchains
  refine ⟨hknown, hlegal, ⟨g, hcurry, ?_, ?_⟩, rfl⟩
  · rw [hmade]
    rfl
  · rw [hmade]
    rfl

end Tokenwise
