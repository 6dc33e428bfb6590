import Tokenwise.Stream

/-!
# The tokens that a stream has left

A stream is read through its source, level by level, and each level checks
positions of its own.  A stream **within its source** passes all of these checks:
at every level the position is one of the source, or its end.  Of such a stream
nothing matters but the plain list of its remaining tokens (`Stream.tokens`).

* Reading a token reads the list (`Source.Within.get_eq`), and so does going
  through all of them (`Stream.Within.toList_eq`).
* The next token is the head of the list (`Stream.Within.peek_eq`).
* Advancing drops tokens from the list, and never more than there are
  (`Stream.Within.advance_eq`, `Stream.tokens_later`).

Whether within its source or not, a stream that can be gone through gives its tokens one after
another (`Stream.toList_cases`), and a stream over a text has characters for its tokens
(`Stream.exists_char_of_peek`).
-/

namespace Tokenwise

variable {α : Type}

namespace Source

/-- Whether, at every level, the position of a view is one of its source or the
end of it. -/
def Within : Source α → Prop
  | whole _ => True
  | view source position =>
      source.Within ∧ 0 ≤ position ∧ ∃ size : Nat, source.size = .ok size ∧ position ≤ size

/-- The tokens of a source within its own sources, in order. -/
def tokens [Token α] : Source α → List α
  | whole items => items.toList
  | view source position => source.tokens.drop position.toNat

variable [Token α]

/-- A source within its own sources has as many tokens as it says. -/
theorem Within.size_eq {source : Source α} (h : source.Within) :
    source.size = .ok source.tokens.length := by
  induction source with
  | whole items => simp [size, tokens]
  | view source position ih =>
      obtain ⟨hwithin, hstart, count, hcount, hend⟩ := h
      have hsize := ih hwithin
      rw [hsize] at hcount
      cases hcount
      have hlength : ((source.tokens.length : Int) - position).toNat
          = (source.tokens.drop position.toNat).length := by
        rw [List.length_drop]
        omega
      simp only [size, hsize, tokens, ← hlength]
      change (if position ≤ source.tokens.length then _ else _) = _
      rw [if_pos hend]

theorem within_view_iff {source : Source α} {position : Int} :
    (view source position).Within
      ↔ source.Within ∧ 0 ≤ position ∧ position ≤ source.tokens.length := by
  constructor
  · intro h
    obtain ⟨hwithin, hstart, size, hsize, hend⟩ := h
    rw [hwithin.size_eq] at hsize
    cases hsize
    exact ⟨hwithin, hstart, hend⟩
  · intro h
    obtain ⟨hwithin, hstart, hend⟩ := h
    exact ⟨hwithin, hstart, _, hwithin.size_eq, hend⟩

/-- A view gives the token that its source has so much further on. -/
theorem Within.get_view {source : Source α} {position : Int} (h : (view source position).Within)
    {index : Nat} (hindex : index < (view source position).tokens.length) :
    (view source position).get index = source.get (position + index) := by
  have hlocate : (view source position).locate index = source.locate (position + index) := by
    rw [locate, h.size_eq]
    have hinside : 0 ≤ (index : Int) ∧ (index : Int) < (view source position).tokens.length := by
      omega
    change (if _ then source.locate (position + if (index : Int) < 0 then _ else _) else _) = _
    rw [if_neg (by omega : ¬ (index : Int) < 0), if_pos hinside]
  rw [get, hlocate]
  rfl

/-- Reading a source within its own sources reads its list of tokens. -/
theorem Within.get_eq {source : Source α} (h : source.Within) {index : Nat}
    (hindex : index < source.tokens.length) :
    source.get index = .ok source.tokens[index] := by
  induction source generalizing index with
  | whole items =>
      have hplace : index < items.toList.length := hindex
      have hsize : index < items.size := by rwa [Sequence.length_toList] at hplace
      have hlocate : items.locate index = .ok index := by
        rw [Sequence.locate]
        rw [if_neg (by omega : ¬ (index : Int) < 0), if_pos (by omega)]
        rfl
      have htoken : items.token? index = some items.toList[index] := by
        rw [Sequence.token?_eq, List.getElem?_eq_getElem hplace]
      simp only [get, locate, hlocate, base, bind, Except.bind, htoken]
      rfl
  | view source position ih =>
      obtain ⟨hwithin, hstart, hend⟩ := within_view_iff.mp h
      have hplace : position + index = ((position.toNat + index : Nat) : Int) := by omega
      have hdrop : index < (source.tokens.drop position.toNat).length := hindex
      have hbound : position.toNat + index < source.tokens.length := by
        rw [List.length_drop] at hdrop
        omega
      calc (view source position).get index
          = source.get (position + index) := h.get_view hindex
        _ = .ok source.tokens[position.toNat + index] := by rw [hplace, ih hwithin hbound]
        _ = .ok (source.tokens.drop position.toNat)[index] := by rw [List.getElem_drop]

end Source

namespace Stream

/-- Whether the position of a stream, and of every stream that it reads from, is
one of the source or the end of it. -/
def Within (stream : Stream α) : Prop := stream.asSource.Within

/-- The view that starts `amount` tokens later. -/
def later (stream : Stream α) (amount : Nat) : Stream α :=
  ⟨stream.source, stream.position + amount⟩

@[simp] theorem later_zero (stream : Stream α) : stream.later 0 = stream := by
  simp [later]

@[simp] theorem later_later (stream : Stream α) (first second : Nat) :
    (stream.later first).later second = stream.later (first + second) := by
  simp [later, Int.add_assoc]

/-- A stream is at its end if it begins at the end of its source, or past it. -/
theorem isAtEnd_of_size {stream : Stream α} {size : Nat} (hsize : stream.source.size = .ok size) :
    stream.isAtEnd = .ok (decide ((size : Int) ≤ stream.position)) := by
  rw [isAtEnd, hsize]
  rfl

theorem isAtEnd_of_size_le {stream : Stream α} {size : Nat} (hsize : stream.source.size = .ok size)
    (hpast : size ≤ stream.position) : stream.isAtEnd = .ok true := by
  rw [isAtEnd_of_size hsize, decide_eq_true hpast]

theorem advance_of_size {stream : Stream α} {size : Nat} (hsize : stream.source.size = .ok size)
    (amount : Int) :
    stream.advance amount = .ok ⟨stream.source, min (stream.position + amount) size⟩ := by
  rw [advance, hsize]
  rfl

variable [Token α]

theorem peek_of_isAtEnd {stream : Stream α} (h : stream.isAtEnd = .ok true) :
    stream.peek = .ok none := by
  rw [peek, h]
  rfl

theorem peek_of_get {stream : Stream α} (h : stream.isAtEnd = .ok false) {token : α}
    (hget : stream.source.get stream.position = .ok token) : stream.peek = .ok (some token) := by
  rw [peek, h, hget]
  rfl

/-- The tokens that a stream within its source has left. -/
def tokens (stream : Stream α) : List α := stream.asSource.tokens

theorem within_iff {stream : Stream α} :
    stream.Within ↔ stream.source.Within ∧ 0 ≤ stream.position
      ∧ stream.position ≤ stream.source.tokens.length :=
  Source.within_view_iff

/-- A stream has as many tokens left as lie between its position and the end. -/
theorem length_tokens {stream : Stream α} (h : stream.Within) :
    stream.position + stream.tokens.length = stream.source.tokens.length := by
  obtain ⟨_, hstart, hend⟩ := within_iff.mp h
  simp only [tokens, asSource, Source.tokens, List.length_drop]
  omega

/-- Starting later, but no later than at the end, keeps a stream within its source. -/
theorem Within.later {stream : Stream α} (h : stream.Within) {amount : Nat}
    (hamount : amount ≤ stream.tokens.length) : (stream.later amount).Within := by
  obtain ⟨hsource, hstart, _⟩ := within_iff.mp h
  have hlength := length_tokens h
  refine within_iff.mpr ⟨hsource, ?_, ?_⟩
  · change 0 ≤ stream.position + amount
    omega
  · change stream.position + amount ≤ stream.source.tokens.length
    omega

theorem tokens_later {stream : Stream α} (h : stream.Within) (amount : Nat) :
    (stream.later amount).tokens = stream.tokens.drop amount := by
  obtain ⟨_, hstart, _⟩ := within_iff.mp h
  have hplace : (stream.position + amount).toNat = stream.position.toNat + amount := by omega
  simp only [tokens, Stream.later, asSource, Source.tokens, List.drop_drop, hplace]

/-- A token of the source, counted from the position, is one of those left. -/
theorem Within.get_source {stream : Stream α} (h : stream.Within) {index : Nat}
    (hindex : index < stream.tokens.length) :
    stream.source.get (stream.position + index) = .ok stream.tokens[index] :=
  (Source.Within.get_view h hindex).symm.trans (Source.Within.get_eq h hindex)

/-- A stream is at its end if no token is left. -/
theorem Within.isAtEnd_eq {stream : Stream α} (h : stream.Within) :
    stream.isAtEnd = .ok stream.tokens.isEmpty := by
  have hlength := length_tokens h
  have hend : decide ((stream.source.tokens.length : Int) ≤ stream.position)
      = stream.tokens.isEmpty := by
    rw [Bool.eq_iff_iff, decide_eq_true_iff, List.isEmpty_iff_length_eq_zero]
    omega
  rw [isAtEnd_of_size (within_iff.mp h).1.size_eq, hend]

/-- Advancing starts later by the amount, or by all tokens that are left. -/
theorem Within.advance_eq {stream : Stream α} (h : stream.Within) (amount : Nat) :
    stream.advance amount = .ok (stream.later (min amount stream.tokens.length)) := by
  have hlength := length_tokens h
  have hplace : min (stream.position + amount) (stream.source.tokens.length : Int)
      = stream.position + (min amount stream.tokens.length : Nat) := by omega
  rw [advance_of_size (within_iff.mp h).1.size_eq, hplace]
  rfl

/-- A computation on the items of a list gives the results that it gives place
by place. -/
private theorem mapM_eq_ok {β γ : Type} {f : β → Except Fault γ} {items : List β}
    {results : List γ} (hlength : items.length = results.length)
    (h : ∀ (place : Nat) (item : β) (result : γ), items[place]? = some item →
      results[place]? = some result → f item = .ok result) :
    items.mapM f = .ok results := by
  induction items generalizing results with
  | nil =>
      cases results with
      | nil => rfl
      | cons result more => simp at hlength
  | cons item items ih =>
      cases results with
      | nil => simp at hlength
      | cons result results =>
          have hfirst : f item = .ok result := h 0 item result rfl rfl
          have hmore : items.mapM f = .ok results :=
            ih (by simpa using hlength) fun place => h (place + 1)
          rw [List.mapM_cons, hfirst, hmore]
          rfl

/-- Going through a stream within its source gives the tokens that are left. -/
theorem Within.toList_eq {stream : Stream α} (h : stream.Within) :
    stream.toList = .ok stream.tokens := by
  have hsize := (within_iff.mp h).1.size_eq
  have hlength := length_tokens h
  have hcount : ((stream.source.tokens.length : Int) - stream.position).toNat
      = stream.tokens.length := by omega
  have hpositions : stream.positions
      = .ok ((List.range stream.tokens.length).map fun offset : Nat =>
          stream.position + offset) := by
    rw [positions, hsize, ← hcount]
    rfl
  rw [toList, hpositions]
  refine mapM_eq_ok (by simp) ?_
  intro place position token hposition htoken
  obtain ⟨hplace, hget⟩ := List.getElem?_eq_some_iff.mp htoken
  have hat : position = stream.position + place := by
    simpa [List.getElem?_range hplace] using hposition.symm
  rw [hat, h.get_source hplace, hget]

section ToList

variable {stream : Stream α} {tokens : List α}

private theorem exists_of_mapM_cons_eq_ok {β γ : Type} {f : β → Except Fault γ} {item : β}
    {items : List β} {results : List γ} (h : (item :: items).mapM f = .ok results) :
    ∃ result more, f item = .ok result ∧ items.mapM f = .ok more ∧ results = result :: more := by
  rw [List.mapM_cons] at h
  cases hfirst : f item with
  | error fault => simp [hfirst, bind, Except.bind] at h
  | ok result =>
      cases hmore : items.mapM f with
      | error fault => simp [hfirst, hmore, bind, Except.bind] at h
      | ok more =>
          simp only [hfirst, hmore, bind, Except.bind] at h
          cases h
          exact ⟨result, more, rfl, rfl, rfl⟩

/-- Going through a stream reads as many positions as lie before the end. -/
theorem toList_of_size {size count : Nat} (hsize : stream.source.size = .ok size)
    (hcount : ((size : Int) - stream.position).toNat = count) :
    stream.toList = ((List.range count).map fun offset : Nat =>
      stream.position + offset).mapM stream.source.get := by
  rw [toList, positions, hsize, ← hcount]
  rfl

/-- One position more is the first one, in front of those that begin one later. -/
private theorem map_range_succ (start : Int) (count : Nat) :
    (List.range (count + 1)).map (fun offset : Nat => start + offset)
      = start :: (List.range count).map fun offset : Nat => start + (1 : Nat) + offset := by
  rw [List.range_succ_eq_map, List.map_cons, List.map_map]
  congr 1
  · exact Int.add_zero start
  · refine List.map_congr_left fun offset _ => ?_
    change start + ((offset + 1 : Nat) : Int) = start + (1 : Nat) + offset
    omega

/-- **One token after another.**  A stream that can be gone through is at its end, or it has a
next token and can be gone through from the one behind it on. -/
theorem toList_cases (h : stream.toList = .ok tokens) :
    (tokens = [] ∧ stream.peek = .ok none)
      ∨ ∃ token more, tokens = token :: more ∧ stream.peek = .ok (some token)
        ∧ stream.advance = .ok (stream.later 1) ∧ (stream.later 1).toList = .ok more := by
  cases hsize : stream.source.size with
  | error fault =>
      rw [toList, positions, hsize] at h
      cases h
  | ok size =>
      have hatEnd := isAtEnd_of_size hsize
      cases hcount : ((size : Int) - stream.position).toNat with
      | zero =>
          rw [toList_of_size hsize hcount] at h
          cases h
          have hend : (size : Int) ≤ stream.position := by omega
          rw [decide_eq_true hend] at hatEnd
          exact .inl ⟨rfl, peek_of_isAtEnd hatEnd⟩
      | succ count =>
          have hbefore : ¬ (size : Int) ≤ stream.position := by omega
          rw [decide_eq_false hbefore] at hatEnd
          rw [toList_of_size hsize hcount, map_range_succ] at h
          obtain ⟨token, more, hget, hmore, rfl⟩ := exists_of_mapM_cons_eq_ok h
          refine .inr ⟨token, more, rfl, peek_of_get hatEnd hget, ?_, ?_⟩
          · have hplace : min (stream.position + 1) (size : Int) = stream.position + (1 : Nat) := by
              omega
            rw [advance_of_size hsize, hplace]
            rfl
          · have hsource : (stream.later 1).source.size = .ok size := hsize
            have hrest : ((size : Int) - (stream.later 1).position).toNat = count := by
              change ((size : Int) - (stream.position + (1 : Nat))).toNat = count
              omega
            rw [toList_of_size hsource hrest]
            exact hmore

theorem peek_of_toList (h : stream.toList = .ok tokens) : stream.peek = .ok tokens.head? := by
  obtain ⟨rfl, hpeek⟩ | ⟨token, more, rfl, hpeek, -, -⟩ := toList_cases h <;> exact hpeek

theorem Within.peek_eq (h : stream.Within) : stream.peek = .ok stream.tokens.head? :=
  peek_of_toList h.toList_eq

/-- What comes later in a stream are its later tokens. -/
theorem toList_later (h : stream.toList = .ok tokens) {count : Nat}
    (hcount : count ≤ tokens.length) : (stream.later count).toList = .ok (tokens.drop count) := by
  induction count generalizing stream tokens with
  | zero => rwa [later_zero, List.drop_zero]
  | succ count ih =>
      obtain ⟨rfl, -⟩ | ⟨token, more, rfl, -, -, hmore⟩ := toList_cases h
      · cases hcount
      · have hlater := ih hmore (Nat.le_of_succ_le_succ hcount)
        rwa [later_later, Nat.add_comm] at hlater

private theorem length_of_mapM_eq_ok {β γ : Type} {f : β → Except Fault γ} {items : List β}
    {results : List γ} (h : items.mapM f = .ok results) : results.length = items.length := by
  induction items generalizing results with
  | nil =>
      cases h
      rfl
  | cons item items ih =>
      obtain ⟨result, more, -, hmore, rfl⟩ := exists_of_mapM_cons_eq_ok h
      rw [List.length_cons, List.length_cons, ih hmore]

/-- The source of a stream that can be gone through has a size. -/
theorem exists_size_of_toList (h : stream.toList = .ok tokens) :
    ∃ size, stream.source.size = .ok size := by
  cases hsize : stream.source.size with
  | error fault =>
      rw [toList, positions, hsize] at h
      cases h
  | ok size => exact ⟨size, rfl⟩

/-- As many tokens are left as lie between the position and the end. -/
theorem length_of_toList (h : stream.toList = .ok tokens) {size : Nat}
    (hsize : stream.source.size = .ok size) :
    tokens.length = ((size : Int) - stream.position).toNat := by
  rw [toList_of_size hsize rfl] at h
  rw [length_of_mapM_eq_ok h, List.length_map, List.length_range]

theorem isAtEnd_of_toList (h : stream.toList = .ok tokens) : stream.isAtEnd = .ok tokens.isEmpty := by
  obtain ⟨size, hsize⟩ := exists_size_of_toList h
  have hlength := length_of_toList h hsize
  have hend : decide ((size : Int) ≤ stream.position) = tokens.isEmpty := by
    rw [Bool.eq_iff_iff, decide_eq_true_iff, List.isEmpty_iff_length_eq_zero]
    omega
  rw [isAtEnd_of_size hsize, hend]

/-- Up to the end, advancing starts later by just as many tokens as asked for. -/
theorem advance_of_toList (h : stream.toList = .ok tokens) {size : Nat}
    (hsize : stream.source.size = .ok size) (hend : stream.position ≤ size) {count : Nat}
    (hcount : count ≤ tokens.length) : stream.advance count = .ok (stream.later count) := by
  have hlength := length_of_toList h hsize
  have hplace : min (stream.position + count) (size : Int) = stream.position + count := by omega
  rw [advance_of_size hsize, hplace]
  rfl

end ToList

/-- The next token is one of the tokens at the bottom of the source. -/
theorem exists_token?_of_peek {stream : Stream α} {token : α} (h : stream.peek = .ok (some token)) :
    ∃ place, stream.source.base.token? place = some token := by
  have hget : stream.source.get stream.position = .ok token := by
    rw [peek] at h
    cases hend : stream.isAtEnd with
    | error fault => simp [hend, bind, Except.bind] at h
    | ok finished =>
        cases finished with
        | true => simp [hend, bind, Except.bind, pure, Except.pure] at h
        | false =>
            cases hget : stream.source.get stream.position with
            | error fault => simp [hend, hget, bind, Except.bind] at h
            | ok next => simpa [hend, hget, bind, Except.bind, pure, Except.pure] using h
  rw [Source.get] at hget
  cases hplace : stream.source.locate stream.position with
  | error fault => simp [hplace, bind, Except.bind] at hget
  | ok place =>
      refine ⟨place, ?_⟩
      cases htoken : stream.source.base.token? place with
      | none => simp [hplace, htoken, bind, Except.bind] at hget
      | some next => simpa [hplace, htoken, bind, Except.bind] using hget

/-- Over a text, the next token is a character. -/
theorem exists_char_of_peek {stream : Stream α} {chars : List Char}
    (htext : stream.source.base = .text chars) {token : α} (h : stream.peek = .ok (some token)) :
    ∃ c, token = Token.ofChar c := by
  obtain ⟨place, htoken⟩ := exists_token?_of_peek h
  rw [htext] at htoken
  obtain ⟨c, -, hc⟩ := Option.map_eq_some_iff.mp htoken
  exact ⟨c, hc.symm⟩

end Stream

end Tokenwise
