import Mathlib.Data.List.Forall2
import Mathlib.Data.List.Nodup
import Mathlib.Data.List.Perm.Subperm
import Tokenwise.Value.Equality

/-!
# Equality of values, part by part

A value is a **shape** and its **parts**.  The shape is what it is apart from the values in
it: its kind, with the number, the text or the positions that belong to it.  The parts are
those values, and for a stream what it reads from, as a plain sequence.

`Value.beq_iff` says all of equality in these terms: two values are equal if they have one
shape and their parts are equal, paired in the way of the shape (`Shape.Pairs`).  In lists,
objects and functions the parts are paired place by place, in descriptors each part has an
equal one on either side, and in dictionaries, which are as long as each other, each entry
of the first has one in the second.  The mark of a function belongs to its shape.

What is said of a value once it is known of its parts holds of all values, however deep
they nest (`Value.Inherited.holds`).  So equality is reflexive (`Value.beq_self`) and
transitive (`Value.beq_trans`).  That it is symmetric needs a value whose dictionaries have
no key twice, since entries of one key would be counted once on the one side
(`Value.beq_symm_of_every`).
-/

namespace Tokenwise

variable {Op : Type}

/-- The positions of the views of a source, the outermost first. -/
def Source.offsets {α : Type} : Source α → List Int
  | whole _ => []
  | view source position => position :: source.offsets

namespace Callable

/-- What a function is apart from the values in it.  An operation is known by its mark. -/
inductive Shape where
  | operation (mark : Nat)
  | awaiting (arity mark : Nat)
  | appendTo (mark : Nat)
  | concatTo (mark : Nat)

def shape {α : Type} : Callable Op α → Shape
  | operation _ _ mark => .operation mark
  | awaiting _ arity _ mark => .awaiting arity mark
  | appendTo _ mark => .appendTo mark
  | concatTo _ mark => .concatTo mark

/-- The values that a function is made of. -/
def parts {α : Type} : Callable Op α → List α
  | operation _ captured _ => captured
  | awaiting f _ given _ => f :: given
  | appendTo items _ | concatTo items _ => [items]

end Callable

namespace Value

/-- What a value is apart from the values in it. -/
inductive Shape where
  | nothing
  | number (n : Int)
  | text (s : String)
  | list
  | tuple
  | dictionary (size : Nat)
  | endOfInput
  | failMarker
  | descriptor (kind : Descriptor.Kind)
  | stream (offsets : List Int)
  | success
  | failure
  | context (c : Context)
  | function (f : Callable.Shape)

def shape : Value Op → Shape
  | nothing => .nothing
  | bool b => .number b.toInt
  | int n => .number n
  | text s => .text s
  | list _ => .list
  | tuple _ => .tuple
  | dictionary entries => .dictionary entries.length
  | endOfInput => .endOfInput
  | failMarker => .failMarker
  | descriptor d => .descriptor d.kind
  | stream s => .stream s.asSource.offsets
  | success _ => .success
  | failure _ => .failure
  | context c => .context c
  | function f => .function f.shape

/-- The values that a value is directly made of.  What a stream reads from is one of
them, as a plain text, list or tuple. -/
def parts : Value Op → List (Value Op)
  | list vs | tuple vs => vs
  | dictionary entries => entries.map fun entry => tuple [text entry.1, entry.2]
  | descriptor d => d.items
  | stream s => [ofSequence s.source.base]
  | success s => [s.output, stream s.remainder]
  | failure f => [ofExpected f.expected, f.actual, stream f.remainder]
  | function f => f.parts
  | nothing | bool _ | int _ | text _ | endOfInput | failMarker | context _ => []

/-- Whether a value has a property once its parts have it. -/
def Inherited (property : Value Op → Prop) : Prop :=
  ∀ v : Value Op, (∀ part ∈ v.parts, property part) → property v

section Induction

variable {property : Value Op → Prop}

mutual

/-- **Induction on the parts of a value.** -/
theorem Inherited.holds (step : Inherited property) : ∀ v, property v
  | .list vs => step _ (step.holds_items vs)
  | .tuple vs => step _ (step.holds_items vs)
  | .dictionary entries => step _ (step.holds_entries entries)
  | .descriptor d => step _ (step.holds_descriptor d)
  | .stream s => step.holds_stream s
  | .success ⟨v, s⟩ => by
      refine step _ ?_
      simpa [parts] using ⟨step.holds v, step.holds_stream s⟩
  | .failure ⟨e, v, s, _⟩ => by
      refine step _ ?_
      simpa [parts] using ⟨step.holds_expected e, step.holds v, step.holds_stream s⟩
  | .function f => step _ (step.holds_callable f)
  | .nothing | .bool _ | .int _ | .text _ | .endOfInput | .failMarker | .context _ => step _ nofun
termination_by structural v => v

theorem Inherited.holds_items (step : Inherited property) :
    ∀ vs : List (Value Op), ∀ v ∈ vs, property v
  | [] => nofun
  | v :: vs => List.forall_mem_cons.mpr ⟨step.holds v, step.holds_items vs⟩
termination_by structural vs => vs

theorem Inherited.holds_entries (step : Inherited property) :
    ∀ entries : List (String × Value Op), ∀ v ∈ (dictionary entries).parts, property v
  | [] => nofun
  | (key, v) :: entries => by
      have hkey : property (text key) := step _ nofun
      have hentry : property (tuple [text key, v]) := by
        refine step _ ?_
        simpa [parts] using ⟨hkey, step.holds v⟩
      exact List.forall_mem_cons.mpr ⟨hentry, step.holds_entries entries⟩
termination_by structural entries => entries

theorem Inherited.holds_descriptor (step : Inherited property) :
    ∀ d : Descriptor (Value Op), ∀ v ∈ d.items, property v
  | ⟨_, vs⟩ => step.holds_items vs
termination_by structural d => d

theorem Inherited.holds_stream (step : Inherited property) : ∀ s, property (.stream s)
  | ⟨source, _⟩ => by
      refine step _ ?_
      simpa [parts] using step.holds_base source
termination_by structural s => s

theorem Inherited.holds_base (step : Inherited property) :
    ∀ source : Source (Value Op), property (ofSequence source.base)
  | .whole tokens => step.holds_sequence tokens
  | .view source _ => step.holds_base source
termination_by structural source => source

theorem Inherited.holds_sequence (step : Inherited property) :
    ∀ tokens : Sequence (Value Op), property (ofSequence tokens)
  | .text _ => step _ nofun
  | .list vs => step _ (step.holds_items vs)
  | .tuple vs => step _ (step.holds_items vs)
termination_by structural tokens => tokens

theorem Inherited.holds_expected (step : Inherited property) :
    ∀ e : Expected (Value Op), property (ofExpected e)
  | .unknown | .endOfInput => step _ nofun
  | .described d => step _ (step.holds_descriptor d)
termination_by structural e => e

theorem Inherited.holds_callable (step : Inherited property) :
    ∀ f : Callable Op (Value Op), ∀ v ∈ f.parts, property v
  | .operation _ captured _ => step.holds_items captured
  | .awaiting v _ given _ => List.forall_mem_cons.mpr ⟨step.holds v, step.holds_items given⟩
  | .appendTo v _ => List.forall_mem_singleton.mpr (step.holds v)
  | .concatTo v _ => List.forall_mem_singleton.mpr (step.holds v)
termination_by structural f => f

end

end Induction

section Companions

/-- Whether every value of the first list has an equal one in the second. -/
def Among (vs ws : List (Value Op)) : Prop := ∀ v ∈ vs, ∃ w ∈ ws, v == w

theorem same_eq_beq (v w : Value Op) : v.same w = (v == w) := rfl

theorem sameItems_iff {vs ws : List (Value Op)} :
    sameItems vs ws = true ↔ List.Forall₂ (fun v w => v == w) vs ws := by
  induction vs generalizing ws with
  | nil => cases ws <;> simp [sameItems]
  | cons v vs ih => cases ws <;> simp [sameItems, ih, same_eq_beq]

theorem allAmong_iff {vs ws : List (Value Op)} : allAmong vs ws = true ↔ Among vs ws := by
  induction vs with
  | nil => simp [allAmong, Among]
  | cons v vs ih => simp [allAmong, ih, Among, same_eq_beq]

theorem someSame_iff {vs : List (Value Op)} {w : Value Op} :
    someSame vs w = true ↔ ∃ v ∈ vs, v == w := by
  induction vs with
  | nil => simp [someSame]
  | cons v vs ih => simp [someSame, ih, same_eq_beq]

theorem sameDescriptor_iff {d e : Descriptor (Value Op)} :
    sameDescriptor d e = true
      ↔ d.kind = e.kind ∧ Among d.items e.items ∧ ∀ w ∈ e.items, ∃ v ∈ d.items, v == w := by
  rcases d with ⟨kind, vs⟩
  rcases e with ⟨other, ws⟩
  simp only [sameDescriptor, Bool.and_eq_true, beq_iff_eq, allAmong_iff, List.all_eq_true,
    someSame_iff, and_assoc]

theorem entry_beq_entry (key other : String) (v w : Value Op) :
    (tuple [text key, v] == tuple [text other, w]) = (other == key && v == w) := by
  simp [← same_eq_beq, same, sameItems, Bool.beq_comm]

theorem sameEntries_iff {entries others : List (String × Value Op)} :
    sameEntries entries others = true
      ↔ Among (dictionary entries).parts (dictionary others).parts := by
  induction entries with
  | nil => simp [sameEntries, Among, parts]
  | cons entry entries ih =>
      rcases entry with ⟨key, v⟩
      rw [sameEntries, Bool.and_eq_true, ih, List.any_eq_true]
      simp [Among, parts, same_eq_beq, entry_beq_entry]

theorem sameSequence_iff {tokens others : Sequence (Value Op)} :
    sameSequence tokens others = true ↔ ofSequence tokens == ofSequence others := by
  cases tokens <;> cases others <;> simp [sameSequence, ofSequence, ← same_eq_beq, same]
  case text.text chars others => exact String.ofList_inj.symm

theorem sameSource_iff {source other : Source (Value Op)} :
    sameSource source other = true
      ↔ source.offsets = other.offsets ∧ ofSequence source.base == ofSequence other.base := by
  induction source generalizing other with
  | whole tokens =>
      cases other <;> simp [sameSource, Source.offsets, Source.base, sameSequence_iff]
  | view source position ih =>
      cases other <;> simp [sameSource, Source.offsets, Source.base, ih, and_assoc]

theorem stream_beq_stream_iff {s t : Stream (Value Op)} :
    (stream s == stream t) = true
      ↔ s.asSource.offsets = t.asSource.offsets
        ∧ ofSequence s.source.base == ofSequence t.source.base := by
  rcases s with ⟨source, position⟩
  rcases t with ⟨other, place⟩
  simp [← same_eq_beq, same, sameStream, sameSource_iff, Source.offsets, Stream.asSource, and_assoc]

theorem sameExpected_iff {e f : Expected (Value Op)} :
    sameExpected e f = true ↔ ofExpected e == ofExpected f := by
  cases e <;> cases f <;> simp [sameExpected, ofExpected, ← same_eq_beq, same]

theorem sameCallable_iff {f g : Callable Op (Value Op)} :
    sameCallable f g = true
      ↔ f.shape = g.shape ∧ List.Forall₂ (fun v w => v == w) f.parts g.parts := by
  cases f <;> cases g <;>
    simp [sameCallable, Callable.shape, Callable.parts, sameItems_iff, same_eq_beq, and_assoc]

end Companions

/-- How the parts of two equal values of one shape are paired. -/
def Shape.Pairs : Shape → List (Value Op) → List (Value Op) → Prop
  | .dictionary _, vs, ws => Among vs ws
  | .descriptor _, vs, ws => Among vs ws ∧ ∀ w ∈ ws, ∃ v ∈ vs, v == w
  | _, vs, ws => List.Forall₂ (fun v w => v == w) vs ws

/-- **Two values are equal if they have one shape and equal parts.** -/
theorem beq_iff {v w : Value Op} :
    (v == w) = true ↔ v.shape = w.shape ∧ v.shape.Pairs v.parts w.parts := by
  cases v <;> cases w <;>
    first
    -- the shapes differ
    | exact ⟨fun h => absurd h Bool.false_ne_true, fun h => Shape.noConfusion h.1⟩
    -- there is nothing to compare
    | exact ⟨fun _ => ⟨rfl, .nil⟩, fun _ => rfl⟩
    | skip
  case bool.bool b c => cases b <;> cases c <;> simp [shape, Shape.Pairs, parts] <;> rfl
  case bool.int b n =>
    change (n == b.toInt) = true ↔ _
    rw [beq_iff_eq, eq_comm]
    simp [shape, Shape.Pairs, parts]
  case int.bool m c =>
    change (m == c.toInt) = true ↔ _
    simp [shape, Shape.Pairs, parts]
  case int.int m n =>
    change (m == n) = true ↔ _
    simp [shape, Shape.Pairs, parts]
  case text.text s t => simp [shape, Shape.Pairs, parts]
  case list.list vs ws =>
    change sameItems vs ws = true ↔ _
    simp [sameItems_iff, shape, Shape.Pairs, parts]
  case tuple.tuple vs ws =>
    change sameItems vs ws = true ↔ _
    simp [sameItems_iff, shape, Shape.Pairs, parts]
  case dictionary.dictionary entries others =>
    change (entries.length == others.length && sameEntries entries others) = true ↔ _
    simp [sameEntries_iff, shape, Shape.Pairs]
  case descriptor.descriptor d e =>
    change sameDescriptor d e = true ↔ _
    simp [sameDescriptor_iff, shape, Shape.Pairs, parts]
  case stream.stream s t => simp [stream_beq_stream_iff, shape, Shape.Pairs, parts]
  case success.success s t =>
    change (s.output == t.output && (stream s.remainder == stream t.remainder)) = true ↔ _
    simp [shape, Shape.Pairs, parts]
  case failure.failure f g =>
    change (sameExpected f.expected g.expected && (f.actual == g.actual)
      && (stream f.remainder == stream g.remainder)) = true ↔ _
    simp [sameExpected_iff, shape, Shape.Pairs, parts, and_assoc]
  case context.context c d =>
    change (c == d) = true ↔ _
    simp [shape, Shape.Pairs, parts]
  case function.function f g =>
    change sameCallable f g = true ↔ _
    simp [sameCallable_iff, shape, Shape.Pairs, parts]

section Laws

variable {vs ws us : List (Value Op)}

/-- What is neither a set nor a dictionary is compared place by place. -/
theorem Shape.Pairs.places {shape : Shape} (h : shape.Pairs vs ws)
    (hdescriptor : ∀ kind, shape ≠ .descriptor kind)
    (hdictionary : ∀ size, shape ≠ .dictionary size) :
    List.Forall₂ (fun v w => v == w) vs ws := by
  cases shape with
  | descriptor kind => exact absurd rfl (hdescriptor kind)
  | dictionary size => exact absurd rfl (hdictionary size)
  | _ => exact h

theorem Among.trans (h : Among vs ws) (hnext : Among ws us)
    (hlaw : ∀ v ∈ vs, ∀ w u, v == w → w == u → v == u) : Among vs us := by
  intro v hv
  obtain ⟨w, hw, hvw⟩ := h v hv
  obtain ⟨u, hu, hwu⟩ := hnext w hw
  exact ⟨u, hu, hlaw v hv w u hvw hwu⟩

theorem forall₂_beq_trans (h : List.Forall₂ (fun v w => v == w) vs ws)
    (hnext : List.Forall₂ (fun v w => v == w) ws us)
    (hlaw : ∀ v ∈ vs, ∀ w u, v == w → w == u → v == u) :
    List.Forall₂ (fun v w => v == w) vs us := by
  induction h generalizing us with
  | nil => exact hnext
  | cons hvw _ ih =>
      cases hnext with
      | cons hwu hmore =>
          obtain ⟨hfirst, hrest⟩ := List.forall_mem_cons.mp hlaw
          exact .cons (hfirst _ _ hvw hwu) (ih hmore hrest)

theorem Shape.Pairs.trans {shape : Shape} (h : shape.Pairs vs ws) (hnext : shape.Pairs ws us)
    (hlaw : ∀ v ∈ vs, ∀ w u, v == w → w == u → v == u) : shape.Pairs vs us := by
  cases shape with
  | dictionary size => exact Among.trans h hnext hlaw
  | descriptor kind =>
      refine ⟨h.1.trans hnext.1 hlaw, ?_⟩
      intro u hu
      obtain ⟨w, hw, hwu⟩ := hnext.2 u hu
      obtain ⟨v, hv, hvw⟩ := h.2 w hw
      exact ⟨v, hv, hlaw v hv w u hvw hwu⟩
  | _ => exact forall₂_beq_trans h hnext hlaw

theorem Shape.Pairs.refl {shape : Shape} (hvs : ∀ v ∈ vs, v == v) : shape.Pairs vs vs := by
  cases shape with
  | dictionary size => exact fun v hv => ⟨v, hv, hvs v hv⟩
  | descriptor kind => exact ⟨fun v hv => ⟨v, hv, hvs v hv⟩, fun v hv => ⟨v, hv, hvs v hv⟩⟩
  | _ => exact List.forall₂_same.mpr hvs

/-- **Each value equals itself.** -/
theorem beq_self (v : Value Op) : v == v := by
  have step : Inherited fun v : Value Op => v == v := fun v ih => beq_iff.mpr ⟨rfl, .refl ih⟩
  exact step.holds v

/-- **Equality is transitive**, among all values. -/
theorem beq_trans {v w u : Value Op} (hvw : v == w) (hwu : w == u) : v == u := by
  have step : Inherited fun v : Value Op => ∀ w u, v == w → w == u → v == u := by
    intro v ih w u hvw hwu
    obtain ⟨hshape, hparts⟩ := beq_iff.mp hvw
    obtain ⟨hnext, hmore⟩ := beq_iff.mp hwu
    rw [← hshape] at hmore
    exact beq_iff.mpr ⟨hshape.trans hnext, hparts.trans hmore ih⟩
  exact step.holds v w u hvw hwu

end Laws

/-- Whether a value and all that it is made of have a property. -/
inductive Every (property : Value Op → Prop) : Value Op → Prop
  | intro {v : Value Op} (here : property v) (below : ∀ part ∈ v.parts, Every property part) :
      Every property v

section Every

variable {property : Value Op → Prop} {v w : Value Op} {vs ws : List (Value Op)}

theorem Every.mono {other : Value Op → Prop} (hv : v.Every property)
    (himp : ∀ u, property u → other u) : v.Every other := by
  induction hv with
  | intro here below ih => exact .intro (himp _ here) ih

/-- Lists that are related place by place are so by any relation that follows of their items. -/
theorem forall₂_imp_of_mem {R S : Value Op → Value Op → Prop} (h : List.Forall₂ R vs ws)
    (himp : ∀ v ∈ vs, ∀ w ∈ ws, R v w → S v w) : List.Forall₂ S vs ws := by
  refine List.forall₂_iff_zip.mpr ⟨h.length_eq, ?_⟩
  intro v w hzip
  obtain ⟨hv, hw⟩ := List.of_mem_zip hzip
  exact himp v hv w hw (List.forall₂_zip h hzip)

theorem Shape.Pairs.symm {shape : Shape}
    (hdictionary : ∀ size, shape = .dictionary size → Among vs ws → Among ws vs)
    (h : shape.Pairs vs ws) (hlaw : ∀ v ∈ vs, ∀ w, v == w → w == v) : shape.Pairs ws vs := by
  cases shape with
  | dictionary size => exact hdictionary size rfl h
  | descriptor kind =>
      obtain ⟨hforth, hback⟩ := h
      refine ⟨?_, ?_⟩
      · intro w hw
        obtain ⟨v, hv, hvw⟩ := hback w hw
        exact ⟨v, hv, hlaw v hv w hvw⟩
      · intro v hv
        obtain ⟨w, hw, hvw⟩ := hforth v hv
        exact ⟨w, hw, hlaw v hv w hvw⟩
  | _ => exact (forall₂_imp_of_mem h fun v hv w _ => hlaw v hv w).flip

section Keys

variable {entries others : List (String × Value Op)}

theorem exists_entry_of_among (h : Among (dictionary entries).parts (dictionary others).parts)
    {entry : String × Value Op} (hentry : entry ∈ entries) :
    ∃ other ∈ others, other.1 = entry.1
      ∧ tuple [text entry.1, entry.2] == tuple [text other.1, other.2] := by
  obtain ⟨part, hpart, hequal⟩ := h _ (List.mem_map_of_mem hentry)
  obtain ⟨other, hother, rfl⟩ := List.mem_map.mp hpart
  have hboth := hequal
  rw [entry_beq_entry, Bool.and_eq_true, beq_iff_eq] at hboth
  exact ⟨other, hother, hboth.1, hequal⟩

/-- Of two dictionaries of one size, the first one without a key twice, the second has the keys
of the first if the first is among it. -/
theorem keys_perm_of_among (hkeys : (entries.map Prod.fst).Nodup)
    (hsize : entries.length = others.length)
    (h : Among (dictionary entries).parts (dictionary others).parts) :
    (entries.map Prod.fst).Perm (others.map Prod.fst) := by
  have hsubset : entries.map Prod.fst ⊆ others.map Prod.fst := by
    intro key hkey
    obtain ⟨entry, hentry, rfl⟩ := List.mem_map.mp hkey
    obtain ⟨other, hother, hsame, -⟩ := exists_entry_of_among h hentry
    exact List.mem_map.mpr ⟨other, hother, hsame⟩
  have hcount : (others.map Prod.fst).length = (entries.map Prod.fst).length := by
    rw [List.length_map, List.length_map, hsize]
  exact (hkeys.subperm hsubset).perm_of_length_le (Nat.le_of_eq hcount)

/-- Then the second one is among the first as well. -/
theorem among_symm_of_keys (hkeys : (entries.map Prod.fst).Nodup)
    (hsize : entries.length = others.length)
    (hlaw : ∀ part ∈ (dictionary entries).parts, ∀ other, part == other → other == part)
    (h : Among (dictionary entries).parts (dictionary others).parts) :
    Among (dictionary others).parts (dictionary entries).parts := by
  have hperm := keys_perm_of_among hkeys hsize h
  intro part hpart
  obtain ⟨other, hother, rfl⟩ := List.mem_map.mp hpart
  obtain ⟨entry, hentry, hkey⟩ := List.mem_map.mp (hperm.mem_iff.mpr (List.mem_map_of_mem hother))
  obtain ⟨found, hfound, hsame, hequal⟩ := exists_entry_of_among h hentry
  -- no other entry has this key
  obtain rfl : found = other :=
    List.inj_on_of_nodup_map (hperm.nodup_iff.mp hkeys) hfound hother (hsame.trans hkey)
  have hfrom := List.mem_map_of_mem (f := fun entry => tuple [text entry.1, entry.2]) hentry
  exact ⟨_, hfrom, hlaw _ hfrom _ hequal⟩

end Keys

/-- Whether a value has no key twice, if it is a dictionary. -/
def HasDistinctKeys : Value Op → Prop
  | dictionary entries => (entries.map Prod.fst).Nodup
  | _ => True

theorem among_symm_of_dictionary (hkeys : v.HasDistinctKeys) (hshape : v.shape = w.shape)
    {size : Nat} (hsize : v.shape = .dictionary size)
    (hlaw : ∀ part ∈ v.parts, ∀ other, part == other → other == part)
    (h : Among v.parts w.parts) : Among w.parts v.parts := by
  cases v with
  | dictionary entries =>
      cases w with
      | dictionary others => exact among_symm_of_keys hkeys (Shape.dictionary.inj hshape) hlaw h
      | _ => cases hshape
  | _ => cases hsize

/-- **A value without a key twice equals what equals it.** -/
theorem beq_symm_of_every (hkeys : ∀ v, property v → v.HasDistinctKeys)
    (hv : v.Every property) (h : v == w) : w == v := by
  induction hv generalizing w with
  | intro here below ih =>
      obtain ⟨hshape, hparts⟩ := beq_iff.mp h
      have hlaw := fun part hpart other => @ih part hpart other
      refine beq_iff.mpr ⟨hshape.symm, ?_⟩
      rw [← hshape]
      refine hparts.symm ?_ hlaw
      intro size hsize
      exact among_symm_of_dictionary (hkeys _ here) hshape hsize hlaw

end Every

end Value

end Tokenwise
