/-
  Bambu.Utility.StringContainer

  `container_to_string` and `string_to_container` of `utility.hpp`.

  The joiner puts a separator where the text so far is not empty, so that empty elements at the
  front are lost.  The splitter goes on after the first character of a separator: what it finds are
  the pieces of `Bambu.Math.pieces`, which are the elements again for a separator of one character.
-/

import Bambu.Math.Splitting

namespace Bambu

open Bambu.Math

/-! ## Joining -/

/-- One element of `container_to_string`. -/
def appendElement (separator : List Char) (trim_empty : Bool) (str estr : List Char) : List Char :=
  if !trim_empty || decide (estr.length ≠ 0) then
    (if str.length ≠ 0 then str ++ separator else str) ++ estr
  else str

/-- `container_to_string(_c, separator, trim_empty)` of a sequence of strings. -/
def containerToString (_c : List (List Char)) (separator : List Char) (trim_empty : Bool) :
    List Char :=
  _c.foldl (appendElement separator trim_empty) []

/-! ## Splitting -/

/-- `str.find(separator, last)`. -/
def findFrom (str separator : List Char) (last : Nat) : Option Nat :=
  if last ≤ str.length then (firstPlace separator (str.drop last)).map (last + ·) else none

/-- The `do` loop of `string_to_container`, with a bound on its rounds. -/
def splitLoop (str separator : List Char) (trim_empty : Bool) :
    Nat → Nat → Nat → List (List Char) → Option (List (List Char))
  | 0, _, _, _ => none
  | fuel + 1, last, curr, first =>
    let len := match findFrom str separator last with
      | some next => next - last
      | none => str.length - last
    let first :=
      if !trim_empty || decide (len ≠ 0) then first ++ [(str.drop curr).take len] else first
    -- One character is stepped over, whatever the length of the separator is.
    let last := last + (len + 1)
    let curr := curr + (len + 1)
    if last ≤ str.length then splitLoop str separator trim_empty fuel last curr first
    else some first

/-- `string_to_container<_Container>(str, separator, trim_empty)`. -/
def stringToContainer (str separator : List Char) (trim_empty : Bool) : Option (List (List Char)) :=
  splitLoop str separator trim_empty (str.length + 1) 0 0 []

/-! ## What the joiner writes -/

variable {separator str e : List Char} {c : List (List Char)} {trim_empty : Bool}

theorem intercalate_append_head (separator str e : List Char) (c : List (List Char)) :
    separator.intercalate ((str ++ e) :: c) = str ++ separator.intercalate (e :: c) := by
  cases c with
  | nil => rw [List.intercalate_singleton, List.intercalate_singleton]
  | cons e' c =>
    rw [List.intercalate_cons_cons, List.intercalate_cons_cons, List.append_assoc str,
      List.append_assoc str]

/-- Once the text is not empty, each element follows a separator. -/
theorem foldl_appendElement (hstr : str ≠ []) (c : List (List Char)) :
    c.foldl (appendElement separator false) str = separator.intercalate (str :: c) := by
  induction c generalizing str with
  | nil => rw [List.foldl_nil, List.intercalate_singleton]
  | cons e c ih =>
    have hstep : appendElement separator false str e = (str ++ separator) ++ e :=
      congrArg (· ++ e) (if_pos (mt List.length_eq_zero_iff.mp hstr))
    rw [List.foldl_cons, hstep, ih (by simp [hstr]), intercalate_append_head,
      List.intercalate_cons_cons]

/-- Nothing is written for an empty element at the front. -/
theorem containerToString_nil_cons (c : List (List Char)) :
    containerToString ([] :: c) separator false = containerToString c separator false := rfl

theorem containerToString_cons (he : e ≠ []) (c : List (List Char)) :
    containerToString (e :: c) separator false = separator.intercalate (e :: c) :=
  foldl_appendElement he c

/-- Trimming leaves out the empty elements. -/
theorem containerToString_trim (c : List (List Char)) :
    containerToString c separator true =
      containerToString (c.filter fun e => e ≠ []) separator false := by
  rw [containerToString, containerToString, List.foldl_filter]
  congr 1
  funext str e
  by_cases he : e = []
  · rw [he]
    rfl
  · have hsame : appendElement separator true str e = appendElement separator false str e := by
      simp [appendElement, he]
    rw [hsame, if_pos (by simpa using he)]

/-! ## What the splitter finds -/

/-- The elements that are put into the container. -/
def kept (trim_empty : Bool) (piece : List Char) : Bool := !trim_empty || decide (piece ≠ [])

theorem filter_kept_false (pieces : List (List Char)) : pieces.filter (kept false) = pieces :=
  List.filter_eq_self.mpr fun _ _ => rfl

/-- A round takes the next piece. -/
theorem nextLength_eq {last : Nat} (hlast : last ≤ str.length) :
    (match findFrom str separator last with
      | some next => next - last
      | none => str.length - last) = pieceLength separator (str.drop last) := by
  rw [findFrom, if_pos hlast, pieceLength, List.length_drop]
  cases firstPlace separator (str.drop last) with
  | none => rfl
  | some place => exact Nat.add_sub_cancel_left last place

/-- The rounds that are left take the pieces that are left. -/
theorem splitLoop_eq {fuel last : Nat} (hlast : last ≤ str.length)
    (hfuel : str.length - last < fuel) (first : List (List Char)) :
    splitLoop str separator trim_empty fuel last last first =
      some (first ++ (pieces separator (str.drop last)).filter (kept trim_empty)) := by
  induction fuel generalizing last first with
  | zero => exact absurd hfuel (Nat.not_lt_zero _)
  | succ fuel ih =>
    have hle := pieceLength_le separator (str.drop last)
    have hdrop : (str.drop last).length = str.length - last := List.length_drop
    rw [splitLoop]
    simp only [nextLength_eq hlast]
    set len := pieceLength separator (str.drop last) with hlen
    have hempty : len ≠ 0 ↔ (str.drop last).take len ≠ [] := by
      rw [← List.length_pos_iff, List.length_take, Nat.min_eq_left hle, Nat.pos_iff_ne_zero]
    have hout : (if !trim_empty || decide (len ≠ 0) then first ++ [(str.drop last).take len]
        else first) = first ++ [(str.drop last).take len].filter (kept trim_empty) := by
      have hkept : (!trim_empty || decide (len ≠ 0)) = kept trim_empty ((str.drop last).take len) :=
        congrArg (!trim_empty || ·) (decide_eq_decide.mpr hempty)
      rw [hkept]
      cases hpiece : kept trim_empty ((str.drop last).take len) with
      | true => rw [if_pos rfl, List.filter_cons_of_pos hpiece, List.filter_nil]
      | false => rw [if_neg Bool.false_ne_true, List.filter_cons_of_neg (by simp [hpiece]),
          List.filter_nil, List.append_nil]
    rw [hout, pieces, ← hlen]
    by_cases hmore : last + (len + 1) ≤ str.length
    · rw [if_pos hmore, if_pos (by omega), ih hmore (by omega), List.drop_drop, List.append_assoc,
        ← List.filter_append]
      rfl
    · have hall : (str.drop last).take len = str.drop last := List.take_of_length_le (by omega)
      rw [if_neg hmore, if_neg (by omega), hall]

theorem stringToContainer_eq (str separator : List Char) (trim_empty : Bool) :
    stringToContainer str separator trim_empty =
      some ((pieces separator str).filter (kept trim_empty)) :=
  splitLoop_eq (Nat.zero_le _) (by omega) []

/-! ## The round trip -/

/-- Splitting gives back the elements, and those that are not empty when both trim; the splitter
returns whatever the text is. -/
structure RoundTrip (separator : List Char) (c : List (List Char)) : Prop where
  all : stringToContainer (containerToString c separator false) separator false = some c
  trimmed : stringToContainer (containerToString c separator true) separator true =
    some (c.filter fun e => e ≠ [])
  returns : ∀ str trim_empty, ∃ out, stringToContainer str separator trim_empty = some out

/-- No element has a character of the separator. -/
def Apart (separator : List Char) (c : List (List Char)) : Prop := ∀ e ∈ c, ∀ a ∈ e, a ∉ separator

theorem Apart.filter (h : Apart separator c) (p : List Char → Bool) :
    Apart separator (c.filter p) := fun e he => h e (List.mem_filter.mp he).1

/-- Cut at a separator of one character, or not at all, the pieces are the elements. -/
theorem pieces_intercalate (hsep : separator ≠ []) (hc : c ≠ []) (hapart : Apart separator c)
    (h : separator.length = 1 ∨ c.length = 1) : pieces separator (separator.intercalate c) = c := by
  rcases h with hone | hone
  · obtain ⟨s, rfl⟩ := List.length_eq_one_iff.mp hone
    rw [pieces_singleton]
    exact List.splitOn_intercalate s (fun e he hs => hapart e he s hs List.mem_cons_self) hc
  · obtain ⟨e, rfl⟩ := List.length_eq_one_iff.mp hone
    rw [List.intercalate_singleton]
    exact pieces_of_notMem hsep (hapart e List.mem_cons_self)

theorem containerToString_of_head (h : c.head? ≠ some []) :
    containerToString c separator false = separator.intercalate c := by
  cases c with
  | nil => rfl
  | cons e c => exact containerToString_cons (fun he => h (congrArg some he)) c

theorem length_intercalate (separator : List Char) (c : List (List Char)) :
    (separator.intercalate c).length =
      (c.map List.length).sum + (c.length - 1) * separator.length := by
  induction c with
  | nil => simp
  | cons e c ih =>
    cases c with
    | nil => simp
    | cons e' c =>
      rw [List.intercalate_cons_cons, List.length_append, List.length_append, ih]
      simp only [List.map_cons, List.sum_cons, List.length_cons, Nat.add_sub_cancel, Nat.succ_mul]
      omega

/-- With a separator of two characters or more, what is left of it makes the pieces longer than
the elements. -/
theorem length_of_pieces_intercalate (hc : c ≠ [])
    (h : pieces separator (separator.intercalate c) = c) : separator.length = 1 ∨ c.length = 1 := by
  have hsum := sum_length_pieces separator (separator.intercalate c)
  have hpos := List.length_pos_iff.mpr hc
  rw [h, length_intercalate] at hsum
  have hmul : (c.length - 1) * separator.length = (c.length - 1) * 1 := by omega
  rcases Nat.eq_zero_or_pos (c.length - 1) with hzero | hmore
  · exact Or.inr (by omega)
  · exact Or.inl (Nat.eq_of_mul_eq_mul_left hmore hmul)

/-- The text is empty or starts with a character of an element. -/
theorem containerToString_start (hapart : Apart separator c) :
    containerToString c separator false = [] ∨
      ∃ a rest, containerToString c separator false = a :: rest ∧ a ∉ separator := by
  induction c with
  | nil => exact Or.inl rfl
  | cons e c ih =>
    cases e with
    | nil =>
      rw [containerToString_nil_cons]
      exact ih fun e he => hapart e (List.mem_cons_of_mem _ he)
    | cons a e =>
      rw [containerToString_cons (List.cons_ne_nil a e)]
      have hhead := intercalate_append_head separator [a] e c
      exact Or.inr ⟨a, _, hhead, hapart _ List.mem_cons_self a List.mem_cons_self⟩

/-- An empty element at the front comes back only when it is the only element. -/
theorem length_of_nil_head (hsep : separator ≠ []) (hapart : Apart separator c)
    (h : pieces separator (containerToString ([] :: c) separator false) = [] :: c) : c = [] := by
  rw [containerToString_nil_cons] at h
  rcases containerToString_start hapart with hempty | ⟨a, rest, hstart, ha⟩
  · rw [hempty, pieces_nil] at h
    exact (List.cons.inj h).2.symm
  · have hpre : ¬ separator <+: a :: rest := not_prefix_of_notMem hsep ha
    obtain ⟨piece, more, hpieces⟩ := exists_pieces_cons hpre
    rw [hstart, hpieces] at h
    exact absurd (List.cons.inj h).1 (List.cons_ne_nil a piece)

theorem head_filter_ne (c : List (List Char)) : (c.filter fun e => e ≠ []).head? ≠ some [] := by
  intro h
  have hmem := List.mem_of_mem_head? h
  simp at hmem

/-- Without the empty elements the round trip needs a separator of one character, or none. -/
theorem trimmed_of (hsep : separator ≠ []) (hapart : Apart separator c)
    (h : separator.length = 1 ∨ (c.filter fun e => e ≠ []).length ≤ 1) :
    stringToContainer (containerToString c separator true) separator true =
      some (c.filter fun e => e ≠ []) := by
  rw [containerToString_trim, containerToString_of_head (head_filter_ne c), stringToContainer_eq]
  congr 1
  by_cases hempty : (c.filter fun e => e ≠ []) = []
  · rw [hempty, List.intercalate_nil, pieces_nil]
    rfl
  · have hpos := List.length_pos_iff.mpr hempty
    rw [pieces_intercalate hsep hempty (hapart.filter _) (h.imp_right fun hle => by omega)]
    apply List.filter_eq_self.mpr
    intro e he
    exact (List.mem_filter.mp he).2

/-- Where the round trip of all elements succeeds. -/
theorem all_iff (hsep : separator ≠ []) (hc : c ≠ []) (hapart : Apart separator c) :
    stringToContainer (containerToString c separator false) separator false = some c ↔
      c.length = 1 ∨ separator.length = 1 ∧ c.head? ≠ some [] := by
  rw [stringToContainer_eq, filter_kept_false, Option.some_inj]
  constructor
  · intro h
    by_cases hhead : c.head? = some []
    · -- Only the one empty element is left.
      obtain ⟨c, rfl⟩ := List.head?_eq_some_iff.mp hhead
      rw [length_of_nil_head hsep (fun e he => hapart e (List.mem_cons_of_mem _ he)) h]
      exact Or.inl rfl
    · rw [containerToString_of_head hhead] at h
      exact (length_of_pieces_intercalate hc h).symm.imp_right fun hone => ⟨hone, hhead⟩
  · rintro (hone | ⟨hone, hhead⟩)
    · have hjoin : containerToString c separator false = separator.intercalate c := by
        obtain ⟨e, rfl⟩ := List.length_eq_one_iff.mp hone
        rw [List.intercalate_singleton]
        exact List.nil_append e
      rw [hjoin, pieces_intercalate hsep hc hapart (Or.inr hone)]
    · rw [containerToString_of_head hhead, pieces_intercalate hsep hc hapart (Or.inl hone)]

/-- The rest of a longer separator is no occurrence of it, and an element after it makes none. -/
theorem not_prefix_rest {s t a : Char} {more rest : List Char} (ha : a ∉ s :: t :: more) :
    ¬ (s :: t :: more) <+: t :: (more ++ a :: rest) := by
  intro hpre
  -- The last character of the occurrence would be the one after the separator.
  have htake := List.prefix_iff_eq_take.mp hpre
  have hmem : a ∈ (t :: (more ++ a :: rest)).take (s :: t :: more).length := by
    rw [List.length_cons, List.length_cons, List.take_succ_cons, List.take_length_add_append]
    simp
  rw [← htake] at hmem
  exact ha hmem

/-- Where the round trip without the empty elements succeeds. -/
theorem trimmed_iff (hsep : separator ≠ []) (hapart : Apart separator c) :
    stringToContainer (containerToString c separator true) separator true =
      some (c.filter fun e => e ≠ []) ↔
      separator.length = 1 ∨ (c.filter fun e => e ≠ []).length ≤ 1 := by
  refine ⟨fun h => ?_, trimmed_of hsep hapart⟩
  have hne : ∀ e ∈ c.filter (fun e => e ≠ []), e ≠ [] := fun e he => by
    simpa using (List.mem_filter.mp he).2
  have hd := hapart.filter fun e => e ≠ []
  rw [containerToString_trim, containerToString_of_head (head_filter_ne c), stringToContainer_eq,
    Option.some_inj] at h
  generalize c.filter (fun e => e ≠ []) = d at h hne hd
  rcases separator with - | ⟨s, - | ⟨t, more⟩⟩
  · exact absurd rfl hsep
  · exact Or.inl rfl
  rcases d with - | ⟨e, - | ⟨e', d⟩⟩
  · exact Or.inr (Nat.zero_le 1)
  · exact Or.inr (Nat.le_refl 1)
  -- The second piece starts with the second character of the separator.
  obtain ⟨a, rest, rfl⟩ := List.exists_cons_of_ne_nil
    (hne e' (List.mem_cons_of_mem e List.mem_cons_self))
  have ha : a ∉ s :: t :: more :=
    hd _ (List.mem_cons_of_mem e List.mem_cons_self) a List.mem_cons_self
  have hhead := intercalate_append_head (s :: t :: more) [a] rest d
  have hpre : ¬ (s :: t :: more) <+:
      t :: (more ++ a :: (s :: t :: more).intercalate (rest :: d)) := not_prefix_rest ha
  obtain ⟨piece, pieces', hpieces⟩ := exists_pieces_cons hpre
  rw [List.intercalate_cons_cons, List.append_assoc, pieces_append hsep (hd e List.mem_cons_self),
    show a :: rest = [a] ++ rest from rfl, hhead, List.cons_append,
    pieces_of_isPrefix (List.prefix_append _ _), List.modifyHead_cons, List.append_nil,
    List.cons_append, List.singleton_append, hpieces,
    List.filter_cons_of_pos (by simpa [kept] using hne e List.mem_cons_self),
    List.filter_cons_of_pos (by simp [kept])] at h
  have hsame := (List.cons.inj (List.cons.inj h).2).1
  have hta := (List.cons.inj hsame).1
  exact absurd (hta ▸ List.mem_cons_of_mem s List.mem_cons_self) ha

/-- Splitting inverts joining for one element, and for a separator of one character if the first
element is not empty. -/
theorem roundTrip_iff (hsep : separator ≠ []) (hc : c ≠ []) (hapart : Apart separator c) :
    RoundTrip separator c ↔ c.length = 1 ∨ separator.length = 1 ∧ c.head? ≠ some [] := by
  rw [← all_iff hsep hc hapart]
  refine ⟨RoundTrip.all, fun hall => ⟨hall, ?_, fun str trim_empty => ?_⟩⟩
  · apply trimmed_of hsep hapart
    rcases (all_iff hsep hc hapart).mp hall with hone | ⟨hone, -⟩
    · exact Or.inr (hone ▸ List.length_filter_le _ c)
    · exact Or.inl hone
  · exact ⟨_, stringToContainer_eq str separator trim_empty⟩

theorem roundTrip_comma : RoundTrip [','] [['a'], [], ['b', 'c'], []] :=
  (roundTrip_iff (by decide) (by decide) (by simp [Apart])).mpr (Or.inr (by decide))

/-- A separator of two characters, and an empty element at the front. -/
theorem not_roundTrip :
    ¬ RoundTrip [' ', ','] [['a'], ['b']] ∧ ¬ RoundTrip [','] [[], ['a']] := by
  refine ⟨fun h => ?_, fun h => ?_⟩
  · exact absurd h.all (by decide)
  · exact absurd h.all (by decide)

end Bambu
