import Tokenwise.Callable.Stock
import Tokenwise.Proofs.Value.Distinct

/-!
# Equal values have equal hash keys

A set finds a value only under its hash key, so values that are equal must not be filed
apart.  For most values this is seen place by place: a key depends on the shape and on the
keys of the parts (`Value.hashKey_eq_of_parts`).

The key of a descriptor is its kind and the number of its items, and equal descriptors list
one set in any order.  That they list equally many is a pigeonhole argument: no two items of
one are equal, and each equals one of the other (`Value.length_le_of_among`).  No two are
equal because a descriptor keeps the distinct ones only, and these are told apart by looking
them up under their keys.  So the argument needs what it is to prove, of the items: this is
an induction on the parts of the first value, to which also the items of the second one are
equal (`Value.hashKey_eq_of_beq`).

What is needed of values is that they are put together as their kinds are: dictionaries have no
key twice, and descriptors list what is distinct (`Value.IsWellFormed`).  Values are **data** if,
besides, they have no functions and no dictionaries in them (`Value.IsData`).
-/

namespace Tokenwise

variable {Op : Type}

namespace Value

/-- Whether a value is neither a function nor a dictionary, and if it is a descriptor,
lists the distinct ones among some values. -/
def IsData : Value Op → Prop
  | function _ | dictionary _ => False
  | descriptor d => ∃ vs, d.items = distinct vs
  | _ => True

theorem IsData.hasDistinctKeys {v : Value Op} (h : v.IsData) : v.HasDistinctKeys := by
  cases v <;> first | exact h.elim | exact trivial

/-- Whether a value has no key twice if it is a dictionary, and if it is a descriptor, lists the
distinct ones among some values. -/
structure IsWellFormed (v : Value Op) : Prop where
  hasDistinctKeys : v.HasDistinctKeys
  items_distinct : ∀ d, v = descriptor d → ∃ vs, d.items = distinct vs

theorem IsData.isWellFormed {v : Value Op} (h : v.IsData) : v.IsWellFormed where
  hasDistinctKeys := h.hasDistinctKeys
  items_distinct := by
    intro d hd
    subst hd
    exact h

theorem tupleKey_eq_of_forall₂ {vs ws : List (Value Op)}
    (h : List.Forall₂ (fun v w => v.hashKey = w.hashKey) vs ws) : tupleKey vs = tupleKey ws := by
  induction h with
  | nil => rfl
  | cons hkey _ ih => rw [tupleKey, tupleKey, hkey, ih]

theorem expected_kind_eq_of_hashKey {e f : Expected (Value Op)}
    (h : (ofExpected e).hashKey = (ofExpected f).hashKey) : e.kind = f.kind := by
  cases e <;> cases f <;> simp_all [ofExpected, hashKey, Expected.kind]

/-- **A key depends on the shape and on the keys of the parts**, and for a descriptor on
the number of parts only. -/
theorem hashKey_eq_of_parts {v w : Value Op} (hshape : v.shape = w.shape)
    (hcount : ∀ kind, v.shape = .descriptor kind → v.parts.length = w.parts.length)
    (hkeys : (∀ kind, v.shape ≠ .descriptor kind) → (∀ size, v.shape ≠ .dictionary size) →
      List.Forall₂ (fun v w => v.hashKey = w.hashKey) v.parts w.parts) :
    v.hashKey = w.hashKey := by
  cases v <;> cases w <;> first | exact Shape.noConfusion hshape | rfl | skip
  case bool.bool b c =>
    obtain h : b.toInt = c.toInt := Shape.number.inj hshape
    rw [hashKey, hashKey, h]
  case bool.int b n =>
    obtain rfl : b.toInt = n := Shape.number.inj hshape
    rfl
  case int.bool n b =>
    obtain rfl : n = b.toInt := Shape.number.inj hshape
    rfl
  case int.int m n =>
    obtain rfl : m = n := Shape.number.inj hshape
    rfl
  case text.text s t =>
    obtain rfl : s = t := Shape.text.inj hshape
    rfl
  case tuple.tuple vs ws => exact tupleKey_eq_of_forall₂ (hkeys nofun nofun)
  case descriptor.descriptor d e =>
    have hkind : d.kind = e.kind := Shape.descriptor.inj hshape
    have hlength : d.items.length = e.items.length := hcount d.kind rfl
    rw [hashKey, hashKey, hkind, hlength]
  case stream.stream s t =>
    have hposition : s.position = t.position := (List.cons.inj (Shape.stream.inj hshape)).1
    rw [hashKey, hashKey, hposition]
  case success.success s t =>
    have hboth := hkeys nofun nofun
    simp only [parts, List.forall₂_cons] at hboth
    exact hboth.2.1
  case failure.failure f g =>
    have hall := hkeys nofun nofun
    simp only [parts, List.forall₂_cons] at hall
    obtain ⟨hexpected, -, hremainder, -⟩ := hall
    have hkind : f.expected.kind = g.expected.kind := expected_kind_eq_of_hashKey hexpected
    have hposition : f.position = g.position := HashKey.number.inj (Option.some.inj hremainder)
    rw [hashKey, hashKey, hkind, hposition]
  case context.context c d =>
    obtain rfl : c = d := Shape.context.inj hshape
    rfl

/-- Values of which no two are equal are not more than those that they all are among. -/
theorem length_le_of_among {vs ws : List (Value Op)}
    (hdistinct : vs.Pairwise fun v w => ¬ v == w) (hsymm : ∀ v ∈ vs, ∀ w, v == w → w == v)
    (h : Among vs ws) : vs.length ≤ ws.length := by
  induction vs generalizing ws with
  | nil => exact Nat.zero_le _
  | cons v vs ih =>
      obtain ⟨hfirst, hrest⟩ := List.pairwise_cons.mp hdistinct
      obtain ⟨w, hw, hvw⟩ := h v List.mem_cons_self
      obtain ⟨before, after, rfl⟩ := List.append_of_mem hw
      -- what equals `w` cannot come after `v`, which does
      have hothers : Among vs (before ++ after) := by
        intro u hu
        obtain ⟨x, hx, hux⟩ := h u (List.mem_cons_of_mem _ hu)
        rcases List.mem_append.mp hx with hx | hx
        · exact ⟨x, List.mem_append_left _ hx, hux⟩
        · rcases List.mem_cons.mp hx with rfl | hx
          · have hxu : x == u := hsymm u (List.mem_cons_of_mem _ hu) x hux
            exact absurd (beq_trans hvw hxu) (hfirst u hu)
          · exact ⟨x, List.mem_append_right _ hx, hux⟩
      have hlength := ih hrest (fun u hu => hsymm u (List.mem_cons_of_mem _ hu)) hothers
      simp only [List.length_cons, List.length_append] at hlength ⊢
      omega

/-- A descriptor lists items of which no two are equal, if equal ones have one key. -/
theorem IsWellFormed.pairwise_parts {v : Value Op} (hv : v.IsWellFormed) {kind : Descriptor.Kind}
    (hkind : v.shape = .descriptor kind)
    (hkeys : ∀ a ∈ v.parts, ∀ b ∈ v.parts, a == b → a.hashKey = b.hashKey) :
    v.parts.Pairwise fun a b => ¬ a == b := by
  cases v with
  | descriptor d =>
      obtain ⟨vs, hitems⟩ := hv.items_distinct d rfl
      have hdistinct : d.items.Pairwise fun a b => ¬ a.hides b := hitems ▸ pairwise_distinct vs
      refine hdistinct.imp_of_mem ?_
      intro a b ha hb hshown hequal
      refine hshown ?_
      simp [hides, hequal, hkeys a ha b hb hequal]
  | _ => cases hkind

theorem beq_symm_of_wellFormed {v w : Value Op} (hv : v.Every IsWellFormed) (h : v == w) :
    w == v :=
  beq_symm_of_every (fun _ hformed => hformed.hasDistinctKeys) hv h

/-- **Equal values have one key**, or none of them has. -/
theorem hashKey_eq_of_wellFormed {v w : Value Op} (hv : v.Every IsWellFormed)
    (hw : w.Every IsWellFormed) (h : v == w) : v.hashKey = w.hashKey := by
  induction hv generalizing w with
  | @intro v here below ih =>
      obtain ⟨hshape, hparts⟩ := beq_iff.mp h
      obtain ⟨hwhere, hwbelow⟩ := hw
      refine hashKey_eq_of_parts hshape ?_ ?_
      · intro kind hkind
        rw [hkind] at hparts
        obtain ⟨hforth, hback⟩ := hparts
        have hv : v.parts.Pairwise fun a b => ¬ a == b :=
          here.pairwise_parts hkind fun a ha b hb => ih a ha (below b hb)
        -- items of the second descriptor that are equal are both equal to one of the first
        have hkeys : ∀ a ∈ w.parts, ∀ b ∈ w.parts, a == b → a.hashKey = b.hashKey := by
          intro a ha b hb hab
          obtain ⟨x, hx, hxa⟩ := hback a ha
          have hxb : x == b := beq_trans hxa hab
          exact (ih x hx (hwbelow a ha) hxa).symm.trans (ih x hx (hwbelow b hb) hxb)
        have hw : w.parts.Pairwise fun a b => ¬ a == b :=
          hwhere.pairwise_parts (hshape ▸ hkind) hkeys
        have hreturn : Among w.parts v.parts := by
          intro b hb
          obtain ⟨a, ha, hab⟩ := hback b hb
          exact ⟨a, ha, beq_symm_of_wellFormed (below a ha) hab⟩
        have hle := length_le_of_among hv (fun a ha b => beq_symm_of_wellFormed (below a ha)) hforth
        have hge := length_le_of_among hw (fun b hb a => beq_symm_of_wellFormed (hwbelow b hb)) hreturn
        omega
      · intro hdescriptor hdictionary
        have hplaces : List.Forall₂ (fun a b => a == b) v.parts w.parts :=
          Shape.Pairs.places hparts hdescriptor hdictionary
        exact forall₂_imp_of_mem hplaces fun a ha b hb => ih a ha (hwbelow b hb)

theorem every_isWellFormed {v : Value Op} (hv : v.Every IsData) : v.Every IsWellFormed :=
  hv.mono fun _ => IsData.isWellFormed

theorem beq_symm_of_data {v w : Value Op} (hv : v.Every IsData) (h : v == w) : w == v :=
  beq_symm_of_wellFormed (every_isWellFormed hv) h

theorem hashKey_eq_of_beq {v w : Value Op} (hv : v.Every IsData) (hw : w.Every IsData)
    (h : v == w) : v.hashKey = w.hashKey :=
  hashKey_eq_of_wellFormed (every_isWellFormed hv) (every_isWellFormed hw) h

/-- A descriptor of the distinct ones among data is data. -/
theorem every_isData_ofItems {vs : List (Value Op)} (hvs : ∀ v ∈ vs, v.Every IsData)
    (kind : Descriptor.Kind) : (descriptor (.ofItems kind vs)).Every IsData :=
  .intro ⟨vs, rfl⟩ fun v hv => hvs v (mem_of_mem_distinct hv)

/-- **Equality is an equivalence that hash keys respect.**  Take values without functions and
dictionaries, nested to any depth, whose descriptors list distinct items.  Each equals itself;
what it equals, equals it; and it equals all that what it equals does.  Two equal values both
have a hash key, the same one, or both have none.  Two equal descriptors list the same number
of items. -/
theorem equality_respected_by_keys {v w u : Value Op} (hv : v.Every IsData)
    (hw : w.Every IsData) :
    v == v ∧ (v == w → w == v) ∧ (v == w → w == u → v == u)
      ∧ (v == w → v.isHashable = w.isHashable ∧ v.hashKey = w.hashKey)
      ∧ ∀ d e, v = descriptor d → w = descriptor e → v == w → d.items.length = e.items.length := by
  refine ⟨beq_self v, beq_symm_of_data hv, beq_trans, ?_, ?_⟩
  · intro h
    have hkey : v.hashKey = w.hashKey := hashKey_eq_of_beq hv hw h
    exact ⟨congrArg Option.isSome hkey, hkey⟩
  · rintro d e rfl rfl h
    have hkey : (descriptor d).hashKey = (descriptor e).hashKey := hashKey_eq_of_beq hv hw h
    exact (HashKey.descriptor.inj (Option.some.inj hkey)).2

/-- Alternatives in another order, with a truth value for a number, are filed alike, also
within a tuple. -/
theorem reordered_alternatives_filed_alike :
    let v : Value Stock := tuple [descriptor (.ofItems .oneOf [int 1, list [], bool true]), int 0]
    let w : Value Stock := tuple [descriptor (.ofItems .oneOf [list [], bool true]), bool false]
    v == w ∧ w == v ∧ v.isHashable = w.isHashable ∧ v.hashKey = w.hashKey := by
  intro v w
  have hint (n : Int) : (int n : Value Stock).Every IsData := .intro trivial nofun
  have hbool (b : Bool) : (bool b : Value Stock).Every IsData := .intro trivial nofun
  have hempty : (list [] : Value Stock).Every IsData := .intro trivial nofun
  have hv : v.Every IsData := by
    have hitems : ∀ item ∈ [int 1, list [], bool true], (item : Value Stock).Every IsData :=
      List.forall_mem_cons.mpr ⟨hint 1, List.forall_mem_cons.mpr
        ⟨hempty, List.forall_mem_singleton.mpr (hbool true)⟩⟩
    exact .intro trivial (List.forall_mem_cons.mpr
      ⟨every_isData_ofItems hitems .oneOf, List.forall_mem_singleton.mpr (hint 0)⟩)
  have hw : w.Every IsData := by
    have hitems : ∀ item ∈ [list [], bool true], (item : Value Stock).Every IsData :=
      List.forall_mem_cons.mpr ⟨hempty, List.forall_mem_singleton.mpr (hbool true)⟩
    exact .intro trivial (List.forall_mem_cons.mpr
      ⟨every_isData_ofItems hitems .oneOf, List.forall_mem_singleton.mpr (hbool false)⟩)
  have hequal : v == w := rfl
  obtain ⟨-, hsymm, -, hkeys, -⟩ := equality_respected_by_keys (u := v) hv hw
  exact ⟨hequal, hsymm hequal, hkeys hequal⟩

end Value

end Tokenwise
