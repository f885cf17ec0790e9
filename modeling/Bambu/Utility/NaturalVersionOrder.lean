/-
  Bambu.Utility.NaturalVersionOrder

  `NaturalVersionOrder` of `fileIO.cpp`, the order of paths by the first version in them.

  Two pairs of pointers walk the two versions component by component.  The walk ends in the first
  component in which the versions differ.  Where the components of one version are all those of the
  other one or the first of them, no exit is taken: both pointers step over a separator that is not
  there, and `std::find` gets a range that ends before it starts (`walk_of_isPrefix`).

  Otherwise the result is the order of the keys of the paths (`naturalVersionOrder_of_decided`).
-/

import Bambu.Math.Numerals
import Bambu.Math.Splitting
import Mathlib.Data.Char
import Mathlib.Data.List.TakeWhile
import Mathlib.Data.Sum.Order

namespace Bambu
namespace NaturalVersionOrder

open Bambu.Math

/-! ## Paths

A byte of a path is the character of its code. -/

/-- The part of a string that `c_str()` shows to a function that stops at the null character. -/
def cStr (s : List Char) : List Char := s.takeWhile fun c => c != Char.ofNat 0

def rootDirectory (p : List Char) : Bool := p.head? == some '/'

/-- The elements of `relative_path()`: names between slashes, and an empty one after a slash at the
end. -/
def pathElements (p : List Char) : List (List Char) :=
  let names := (p.splitOn '/').filter fun name => name != []
  if names ≠ [] ∧ p.getLast? = some '/' then names ++ [[]] else names

/-- `_x < _y` of paths: by the root directory first, then by the elements. -/
def pathLess (x y : List Char) : Bool :=
  if rootDirectory x != rootDirectory y then rootDirectory y
  else decide (pathElements x < pathElements y)

/-! ## The search for a version -/

/-- `mx[0]` in the text that it points into. -/
structure SubMatch where
  text : List Char
  first : Nat
  second : Nat

/-- How far digits go on, with a dot where a digit follows it. -/
def matchLength : List Char → Nat
  | [] => 0
  | c :: rest =>
    if c.isDigit || (c == '.' && rest.head?.any Char.isDigit) then matchLength rest + 1 else 0

/-- `std::regex_search(s.c_str(), m, version_number)`: from the first digit on. -/
def regexSearch (s : List Char) : Option SubMatch :=
  let text := cStr s
  let first := (text.takeWhile fun c => !c.isDigit).length
  if first < text.length then some ⟨text, first, first + matchLength (text.drop first)⟩ else none

/-! ## The comparison -/

inductive Fault where
  /-- What is read is not in the matched text, or the range of a search ends before it starts. -/
  | beyond
  /-- Not of the source: the bound on the rounds of a loop was hit. -/
  | outOfFuel
  deriving DecidableEq, Repr

/-- `std::find(p, m.second, '.')` -/
def findDot (m : SubMatch) (p : Nat) : Except Fault Nat :=
  if p ≤ m.second then
    .ok (p + (((m.text.drop p).take (m.second - p)).takeWhile fun c => c != '.').length)
  else .error .beyond

/-- `*p` -/
def deref (m : SubMatch) (p : Nat) : Except Fault Char :=
  match m.text[p]? with
  | some c => if m.first ≤ p ∧ p < m.second then .ok c else .error .beyond
  | none => .error .beyond

/-- The inner loop: what the function returns, or the pointers after the loop. -/
def digitLoop (mx my : SubMatch) (lx : Nat) : Nat → Nat → Nat → Except Fault (Bool ⊕ Nat × Nat)
  | 0, _, _ => .error .outOfFuel
  | fuel + 1, px, py => do
    let cx ← deref mx px
    let cy ← deref my py
    if cx ≠ cy then .ok (.inl (decide (cx < cy)))
    else
      let py := py + 1
      let px := px + 1
      if px ≠ lx then digitLoop mx my lx fuel px py else .ok (.inr (px, py))

/-- The outer loop. -/
def versionLoop (mx my : SubMatch) : Nat → Nat → Nat → Except Fault Bool
  | 0, _, _ => .error .outOfFuel
  | fuel + 1, px, py => do
    let lx ← findDot mx px
    let ly ← findDot my py
    if py = ly then .ok false
    else
      let dx := lx - px
      let dy := ly - py
      if dx ≠ dy then .ok (decide (dx < dy))
      else
        match ← digitLoop mx my lx (mx.text.length + 1) px py with
        | .inl result => .ok result
        | .inr (px, py) =>
          let py := py + 1
          let px := px + 1
          if px ≠ mx.second then versionLoop mx my fuel px py else .ok true

/-- `NaturalVersionOrder(_x, _y)` -/
def naturalVersionOrder (_x _y : List Char) : Except Fault Bool :=
  match regexSearch _x with
  | some mx =>
    match regexSearch _y with
    | some my => versionLoop mx my (mx.text.length + 2) mx.first my.first
    | none => .ok false
  | none =>
    match regexSearch _y with
    | some _ => .ok true
    | none => .ok (pathLess _x _y)

/-! ## The version of a path -/

/-- The matched text. -/
def SubMatch.str (m : SubMatch) : List Char := (m.text.drop m.first).take (m.second - m.first)

/-- The components of the version of a path. -/
def version (s : List Char) : Option (List (List Char)) :=
  (regexSearch s).map fun m => m.str.splitOn '.'

/-- A group of digits. -/
def DigitGroup (c : List Char) : Prop := c ≠ [] ∧ ∀ d ∈ c, d.isDigit = true

/-- A text whose parts between the dots are groups of digits. -/
def Groups (w : List Char) : Prop := ∀ c ∈ w.splitOn '.', DigitGroup c

theorem ne_dot_of_isDigit {d : Char} (hd : d.isDigit = true) : d ≠ '.' := by
  rintro rfl
  exact absurd hd (by decide)

theorem splitOn_cons_digit {d : Char} (hd : d.isDigit = true) (w : List Char) :
    (d :: w).splitOn '.' = (w.splitOn '.').modifyHead (d :: ·) := by
  rw [List.splitOn_cons_eq_if_modifyHead, if_neg (by simpa using ne_dot_of_isDigit hd)]

theorem Groups.cons {d : Char} {w : List Char} (hd : d.isDigit = true) (h : Groups w) :
    Groups (d :: w) := by
  intro c hc
  rw [splitOn_cons_digit hd] at hc
  obtain ⟨piece, more, heq⟩ := List.exists_cons_of_ne_nil (List.splitOn_ne_nil '.' w)
  rw [heq, List.modifyHead_cons] at hc
  rcases List.mem_cons.mp hc with rfl | hc
  · have hpiece := (h piece (heq ▸ List.mem_cons_self)).2
    exact ⟨List.cons_ne_nil d piece, List.forall_mem_cons.mpr ⟨hd, hpiece⟩⟩
  · exact h c (heq ▸ List.mem_cons_of_mem piece hc)

theorem digitGroup_singleton {d : Char} (hd : d.isDigit = true) : DigitGroup [d] :=
  ⟨List.cons_ne_nil d [], fun _ he => List.mem_singleton.mp he ▸ hd⟩

theorem groups_singleton {d : Char} (hd : d.isDigit = true) : Groups [d] := by
  intro c hc
  rw [splitOn_cons_digit hd, List.splitOn_nil] at hc
  rw [List.mem_singleton.mp hc]
  exact digitGroup_singleton hd

/-- A new group starts after a dot. -/
theorem Groups.dot {d : Char} {w : List Char} (hd : d.isDigit = true) (h : Groups w) :
    Groups (d :: '.' :: w) := by
  intro c hc
  rw [splitOn_cons_digit hd, List.splitOn_cons_eq_if_modifyHead, if_pos (by decide),
    List.modifyHead_cons] at hc
  rcases List.mem_cons.mp hc with rfl | hc
  · exact digitGroup_singleton hd
  · exact h c hc

theorem matchLength_le (t : List Char) : matchLength t ≤ t.length := by
  induction t with
  | nil => exact Nat.le_refl 0
  | cons c t ih =>
    rw [matchLength]
    split
    · exact Nat.succ_le_succ ih
    · exact Nat.zero_le _

/-- What is matched after a digit goes on with its group or starts a new one. -/
theorem groups_match (t : List Char) :
    ∀ d : Char, d.isDigit = true → Groups (d :: t.take (matchLength t)) := by
  match t with
  | [] => exact fun d hd => groups_singleton hd
  | [c] =>
    intro d hd
    by_cases hc : c.isDigit = true
    · rw [matchLength, if_pos (by simp [hc])]
      exact (groups_singleton hc).cons hd
    · rw [matchLength, if_neg (by simp [hc])]
      exact groups_singleton hd
  | c :: e :: t =>
    intro d hd
    rw [matchLength]
    split
    · rename_i hgo
      rw [List.take_succ_cons]
      by_cases hc : c.isDigit = true
      · exact (groups_match (e :: t) c hc).cons hd
      · -- A dot with a digit behind it.
        have hdot : c = '.' ∧ e.isDigit = true := by simpa [hc] using hgo
        obtain ⟨rfl, he⟩ := hdot
        have hrest := groups_match t e he
        rw [matchLength, if_pos (by simp [he]), List.take_succ_cons]
        exact hrest.dot hd
    · exact groups_singleton hd

/-! ## Where the pointers stand -/

/-- From the pointer on the matched text has these components. -/
structure At (m : SubMatch) (p : Nat) (comps : List (List Char)) : Prop where
  text : ∃ rest, m.text.drop p = ['.'].intercalate comps ++ rest
  first : m.first ≤ p
  second : p + (['.'].intercalate comps).length = m.second

/-- A match has components, which are groups of digits. -/
theorem regexSearch_spec {s : List Char} {m : SubMatch} (h : regexSearch s = some m) :
    (∀ c ∈ m.str.splitOn '.', DigitGroup c) ∧ At m m.first (m.str.splitOn '.') ∧
      (m.str.splitOn '.').length ≤ m.text.length + 1 := by
  rw [regexSearch] at h
  set text := cStr s
  set first := (text.takeWhile fun c => !c.isDigit).length with hfirst
  split at h
  case isFalse => cases h
  case isTrue hlt =>
    obtain rfl := Option.some.inj h
    have hdrop : text.drop first = text.dropWhile fun c => !c.isDigit := by
      conv_lhs => rw [← List.takeWhile_append_dropWhile (p := fun c => !c.isDigit) (l := text)]
      rw [hfirst, List.drop_left]
    -- The first character that is not skipped is a digit.
    obtain ⟨d, t, ht⟩ : ∃ d t, text.drop first = d :: t :=
      List.exists_cons_of_ne_nil (by simpa using hlt)
    have hd : d.isDigit = true := by
      have hhead := List.head?_dropWhile_not (fun c : Char => !c.isDigit) text
      rw [← hdrop, ht] at hhead
      simpa using hhead
    have hstr : SubMatch.str ⟨text, first, first + matchLength (text.drop first)⟩ =
        d :: t.take (matchLength t) := by
      rw [SubMatch.str, Nat.add_sub_cancel_left, ht, matchLength, if_pos (by simp [hd]),
        List.take_succ_cons]
    rw [hstr]
    refine ⟨groups_match t d hd, ⟨⟨t.drop (matchLength t), ?_⟩, le_rfl, ?_⟩, ?_⟩
    · rw [List.intercalate_splitOn, ht, List.cons_append, List.take_append_drop]
    · have hle := matchLength_le t
      rw [List.intercalate_splitOn, ht, List.length_cons, List.length_take, Nat.min_eq_left hle]
      rw [matchLength, if_pos (by simp [hd])]
    · have hsum := sum_length_pieces ['.'] (d :: t.take (matchLength t))
      have hlen : (text.drop first).length ≤ text.length := (List.drop_sublist first text).length_le
      rw [ht] at hlen
      simp only [pieces_singleton, List.length_cons, List.length_take] at hsum hlen
      show _ ≤ text.length + 1
      omega

/-! ## The walk -/

variable {m mx my : SubMatch} {p px py : Nat} {a b c : List Char} {u v : List (List Char)}

theorem deref_eq {d : Char} {rest : List Char} (htext : m.text.drop p = d :: rest)
    (hfirst : m.first ≤ p) (hsecond : p < m.second) : deref m p = .ok d := by
  have hget : m.text[p]? = some d := by
    rw [← List.head?_drop, htext]
    rfl
  rw [deref, hget]
  exact if_pos ⟨hfirst, hsecond⟩

theorem takeWhile_group (hc : DigitGroup c) :
    (['.'].intercalate (c :: u)).takeWhile (fun d => d != '.') = c := by
  have hnodot : ∀ d ∈ c, (d != '.') = true := fun d hd => by
    simpa using ne_dot_of_isDigit (hc.2 d hd)
  cases u with
  | nil => rw [List.intercalate_singleton, List.takeWhile_eq_self_iff.mpr hnodot]
  | cons c' u =>
    rw [List.intercalate_cons_cons, List.append_assoc, List.takeWhile_append_of_pos hnodot]
    exact List.append_nil c

/-- The search finds the end of the component. -/
theorem findDot_eq (h : At m p (c :: u)) (hc : DigitGroup c) :
    findDot m p = .ok (p + c.length) := by
  obtain ⟨⟨rest, htext⟩, -, hsecond⟩ := h
  have hlen : m.second - p = (['.'].intercalate (c :: u)).length := by omega
  rw [findDot, if_pos (by omega), htext, hlen, List.take_left, takeWhile_group hc]

/-- Behind the end of the match there is nothing to search. -/
theorem findDot_beyond (h : m.second < p) : findDot m p = .error .beyond :=
  if_neg (Nat.not_le.mpr h)

/-- The inner loop compares two components of one length. -/
theorem digitLoop_eq {fuel : Nat} {rx ry : List Char} (hlen : a.length = b.length) (ha : a ≠ [])
    (hx : mx.text.drop px = a ++ rx) (hy : my.text.drop py = b ++ ry)
    (hmx : mx.first ≤ px ∧ px + a.length ≤ mx.second)
    (hmy : my.first ≤ py ∧ py + b.length ≤ my.second) (hfuel : a.length ≤ fuel) :
    digitLoop mx my (px + a.length) fuel px py =
      .ok (if a = b then .inr (px + a.length, py + b.length) else .inl (decide (a < b))) := by
  induction a generalizing b px py fuel with
  | nil => exact absurd rfl ha
  | cons d a ih =>
    cases b with
    | nil => cases hlen
    | cons e b =>
      cases fuel with
      | zero => exact absurd hfuel (Nat.not_succ_le_zero _)
      | succ fuel =>
        have hlen' : a.length = b.length := Nat.succ.inj hlen
        simp only [List.length_cons] at hmx hmy hfuel
        rw [digitLoop, deref_eq hx hmx.1 (by omega), deref_eq hy hmy.1 (by omega)]
        show (if d ≠ e then _ else _) = _
        by_cases hde : d = e
        · subst hde
          have hx' : mx.text.drop (px + 1) = a ++ rx := by
            rw [← List.drop_drop, hx]
            rfl
          have hy' : my.text.drop (py + 1) = b ++ ry := by
            rw [← List.drop_drop, hy]
            rfl
          rw [if_neg (not_not.mpr rfl), List.length_cons, List.length_cons]
          cases a with
          | nil =>
            -- Both components end here.
            obtain rfl := List.length_eq_zero_iff.mp hlen'.symm
            rw [if_neg (by simp), if_pos rfl]
            rfl
          | cons d' a =>
            have hmore := ih hlen' (List.cons_ne_nil d' a) hx' hy' ⟨by omega, by omega⟩
              ⟨by omega, by omega⟩ (Nat.le_of_succ_le_succ hfuel)
            have hpx : px + ((d' :: a).length + 1) = px + 1 + (d' :: a).length := by omega
            have hpy : py + (b.length + 1) = py + 1 + b.length := by omega
            rw [if_pos (by simp), hpx, hpy, hmore]
            simp
        · rw [if_pos hde, if_neg (fun h => hde (List.cons.inj h).1)]
          simp [List.cons_lt_cons_iff, hde]

/-- The pointer steps over the component and the dot behind it. -/
theorem At.next (h : At m p (a :: b :: u)) : At m (p + a.length + 1) (b :: u) := by
  obtain ⟨⟨rest, htext⟩, hfirst, hsecond⟩ := h
  rw [List.intercalate_cons_cons] at htext hsecond
  refine ⟨⟨rest, ?_⟩, by omega, ?_⟩
  · rw [Nat.add_assoc, ← List.drop_drop, htext, List.append_assoc, List.append_assoc,
      ← List.drop_drop, List.drop_left]
    rfl
  · rw [← hsecond, List.length_append, List.length_append, List.length_singleton]
    omega

/-- The component at the pointer. -/
theorem At.component (h : At m p (a :: u)) :
    (∃ rest, m.text.drop p = a ++ rest) ∧ m.first ≤ p ∧ p + a.length ≤ m.second := by
  obtain ⟨⟨rest, htext⟩, hfirst, hsecond⟩ := h
  cases u with
  | nil =>
    rw [List.intercalate_singleton] at htext hsecond
    exact ⟨⟨rest, htext⟩, hfirst, hsecond.le⟩
  | cons b u =>
    rw [List.intercalate_cons_cons, List.append_assoc] at htext hsecond
    rw [List.length_append] at hsecond
    exact ⟨⟨_, htext.trans (List.append_assoc _ _ _)⟩, hfirst, by omega⟩

/-- The last component ends where the match does. -/
theorem At.end (h : At m p [a]) : p + a.length = m.second := by
  rw [← h.second, List.intercalate_singleton]

/-- What the two loops compute of the components. -/
def walk : List (List Char) → List (List Char) → Except Fault Bool
  | a :: u, b :: v =>
    if a.length ≠ b.length then .ok (decide (a.length < b.length))
    else if a ≠ b then .ok (decide (a < b))
    else walk u v
  | _, _ => .error .beyond

theorem walk_nil_right (u : List (List Char)) : walk u [] = .error .beyond := by
  cases u <;> rfl

/-- One round of the outer loop, with both pointers at components. -/
theorem versionLoop_round (fuel : Nat) (hx : At mx px (a :: u)) (hy : At my py (b :: v))
    (ha : DigitGroup a) (hb : DigitGroup b) :
    versionLoop mx my (fuel + 1) px py =
      if a.length ≠ b.length then .ok (decide (a.length < b.length))
      else if a ≠ b then .ok (decide (a < b))
      else if px + a.length + 1 ≠ mx.second then
        versionLoop mx my fuel (px + a.length + 1) (py + b.length + 1)
      else .ok true := by
  have hpos : 0 < b.length := List.length_pos_iff.mpr hb.1
  rw [versionLoop, findDot_eq hx ha, findDot_eq hy hb]
  show (if py = py + b.length then _ else _) = _
  rw [if_neg (by omega)]
  simp only [Nat.add_sub_cancel_left]
  by_cases hlen : a.length = b.length
  · obtain ⟨⟨rx, hrx⟩, hmx⟩ := hx.component
    obtain ⟨⟨ry, hry⟩, hmy⟩ := hy.component
    have hfuel : a.length ≤ mx.text.length + 1 := by
      have hle := (List.drop_sublist px mx.text).length_le
      rw [hrx, List.length_append] at hle
      omega
    rw [if_neg (not_not.mpr hlen), if_neg (not_not.mpr hlen),
      digitLoop_eq hlen ha.1 hrx hry hmx hmy hfuel]
    by_cases hab : a = b
    · rw [if_pos hab, if_neg (not_not.mpr hab)]
      rfl
    · rw [if_neg hab, if_pos hab]
      rfl
  · rw [if_pos hlen, if_pos hlen]

/-- A pointer of the first path behind the end of its version. -/
theorem versionLoop_left_end (fuel : Nat) (hx : mx.second < px) :
    versionLoop mx my (fuel + 1) px py = .error .beyond := by
  rw [versionLoop, findDot_beyond hx]
  rfl

/-- A pointer of the second path behind the end of its version. -/
theorem versionLoop_right_end (fuel : Nat) (hx : At mx px (a :: u)) (ha : DigitGroup a)
    (hy : my.second < py) : versionLoop mx my (fuel + 1) px py = .error .beyond := by
  rw [versionLoop, findDot_eq hx ha, findDot_beyond hy]
  rfl

/-- The loops take the components in turn; the test at the end of a round never fails. -/
theorem versionLoop_eq (fuel : Nat) (hx : At mx px (a :: u)) (hy : At my py (b :: v))
    (hu : ∀ c ∈ a :: u, DigitGroup c) (hv : ∀ c ∈ b :: v, DigitGroup c) :
    versionLoop mx my (fuel + (u.length + 2)) px py = walk (a :: u) (b :: v) := by
  induction u generalizing a b v px py with
  | nil =>
    -- There is no next component of the first version.
    have hend := hx.end
    rw [show fuel + ([].length + 2) = fuel + 1 + 1 from rfl,
      versionLoop_round _ hx hy (hu a List.mem_cons_self) (hv b List.mem_cons_self),
      if_pos (show px + a.length + 1 ≠ mx.second by omega), versionLoop_left_end _ (by omega)]
    rfl
  | cons a' u ih =>
    have hnext := hx.next
    have ha' : DigitGroup a' := hu a' (List.mem_cons_of_mem a List.mem_cons_self)
    have hpos : 0 < a'.length := List.length_pos_iff.mpr ha'.1
    have hlt := hnext.component.2.2
    rw [show fuel + ((a' :: u).length + 2) = fuel + (u.length + 2) + 1 from rfl,
      versionLoop_round _ hx hy (hu a List.mem_cons_self) (hv b List.mem_cons_self),
      if_pos (show px + a.length + 1 ≠ mx.second by omega), walk]
    cases v with
    | nil =>
      have hend := hy.end
      have hright : versionLoop mx my (fuel + (u.length + 2)) (px + a.length + 1)
          (py + b.length + 1) = .error .beyond :=
        versionLoop_right_end (fuel + u.length + 1) hnext ha' (by omega)
      rw [hright, walk_nil_right]
    | cons b' v =>
      rw [ih hnext hy.next (fun c hc => hu c (List.mem_cons_of_mem a hc))
        fun c hc => hv c (List.mem_cons_of_mem b hc)]

/-! ## What the walk decides -/

/-- One list of components is all of the other one or the first of them: the walk finds no
difference. -/
theorem walk_of_isPrefix (h : u <+: v ∨ v <+: u) : walk u v = .error .beyond := by
  induction u generalizing v with
  | nil => rfl
  | cons a u ih =>
    cases v with
    | nil => rfl
    | cons b v =>
      rw [List.cons_prefix_cons, List.cons_prefix_cons] at h
      have hab : a = b := h.elim (fun h => h.1) fun h => h.1.symm
      rw [walk, if_neg (not_not.mpr (congrArg List.length hab)), if_neg (not_not.mpr hab)]
      exact ih (h.imp (fun h => h.2) fun h => h.2)

/-- Otherwise it gives the order of the components. -/
theorem walk_eq (h : ¬ (u <+: v ∨ v <+: u)) :
    walk u v = .ok (decide (u.map lengthKey < v.map lengthKey)) := by
  induction u generalizing v with
  | nil => exact absurd (Or.inl (List.nil_prefix)) h
  | cons a u ih =>
    cases v with
    | nil => exact absurd (Or.inr (List.nil_prefix)) h
    | cons b v =>
      have hcons : decide ((a :: u).map lengthKey < (b :: v).map lengthKey) =
          decide ((a.length < b.length ∨ a.length = b.length ∧ a < b) ∨
            a = b ∧ u.map lengthKey < v.map lengthKey) := by
        apply decide_eq_decide.mpr
        rw [List.map_cons, List.map_cons, List.cons_lt_cons_iff, lengthKey_lt_iff, lengthKey_inj]
      rw [hcons, walk]
      by_cases hlen : a.length = b.length
      · rw [if_neg (not_not.mpr hlen)]
        by_cases hab : a = b
        · subst hab
          rw [List.cons_prefix_cons, List.cons_prefix_cons] at h
          have hrest : ¬ (u <+: v ∨ v <+: u) := fun hpre =>
            h (hpre.imp (fun h' => ⟨rfl, h'⟩) fun h' => ⟨rfl, h'⟩)
          rw [if_neg (not_not.mpr rfl), ih hrest]
          simp
        · simp [hlen, hab]
      · have hab : a ≠ b := fun hab => hlen (congrArg List.length hab)
        simp [hlen, hab]

/-! ## The order of the keys -/

variable {x y z : List Char}

/-- Paths are compared by the root directory, then by the elements. -/
def pathKey (p : List Char) : Bool ×ₗ List (List Char) := toLex (rootDirectory p, pathElements p)

theorem pathLess_eq (x y : List Char) : pathLess x y = decide (pathKey x < pathKey y) := by
  have hlex : decide (pathKey x < pathKey y) = decide (rootDirectory x < rootDirectory y ∨
      rootDirectory x = rootDirectory y ∧ pathElements x < pathElements y) :=
    decide_eq_decide.mpr Prod.Lex.toLex_lt_toLex
  rw [hlex, pathLess]
  cases rootDirectory x <;> cases rootDirectory y <;> simp

/-- Paths without a version come first, in the order of paths; versions are ordered by their
components, the shorter one of two components first. -/
def key (s : List Char) : (Bool ×ₗ List (List Char)) ⊕ₗ List (ℕ ×ₗ List Char) :=
  match version s with
  | none => Sum.inlₗ (pathKey s)
  | some u => Sum.inrₗ (u.map lengthKey)

/-- Not both paths have a version with all components of one the first components of the other. -/
def Decided (x y : List Char) : Prop :=
  ∀ u v, version x = some u → version y = some v → ¬ (u <+: v ∨ v <+: u)

theorem Decided.symm (h : Decided x y) : Decided y x :=
  fun v u hv hu hpre => h u v hu hv hpre.symm

theorem version_of_match {m : SubMatch} (h : regexSearch x = some m) :
    version x = some (m.str.splitOn '.') := by
  rw [version, h]
  rfl

theorem version_of_none (h : regexSearch x = none) : version x = none := by
  rw [version, h]
  rfl

/-- Two versions are walked. -/
theorem naturalVersionOrder_walk {mx my : SubMatch} (hx : regexSearch x = some mx)
    (hy : regexSearch y = some my) :
    naturalVersionOrder x y = walk (mx.str.splitOn '.') (my.str.splitOn '.') := by
  obtain ⟨hu, hatx, hlen⟩ := regexSearch_spec hx
  obtain ⟨hv, haty, -⟩ := regexSearch_spec hy
  obtain ⟨a, u, hau⟩ := List.exists_cons_of_ne_nil (List.splitOn_ne_nil '.' mx.str)
  obtain ⟨b, v, hbv⟩ := List.exists_cons_of_ne_nil (List.splitOn_ne_nil '.' my.str)
  rw [hau] at hu hatx hlen
  rw [hbv] at hv haty
  rw [naturalVersionOrder, hx, hy, hau, hbv]
  obtain ⟨fuel, hfuel⟩ : ∃ fuel, mx.text.length + 2 = fuel + (u.length + 2) :=
    ⟨mx.text.length - u.length, by rw [List.length_cons] at hlen; omega⟩
  show versionLoop mx my (mx.text.length + 2) mx.first my.first = _
  rw [hfuel]
  exact versionLoop_eq fuel hatx haty hu hv

/-- Where the versions differ in a component that both have, the result is the order of the
keys. -/
theorem naturalVersionOrder_of_decided (h : Decided x y) :
    naturalVersionOrder x y = .ok (decide (key x < key y)) := by
  cases hx : regexSearch x with
  | some mx =>
    cases hy : regexSearch y with
    | some my =>
      have hversions := h _ _ (version_of_match hx) (version_of_match hy)
      have hkeys : decide (key x < key y) = decide ((mx.str.splitOn '.').map lengthKey <
          (my.str.splitOn '.').map lengthKey) := by
        apply decide_eq_decide.mpr
        rw [key, key, version_of_match hx, version_of_match hy]
        exact Sum.Lex.inr_lt_inr_iff
      rw [naturalVersionOrder_walk hx hy, walk_eq hversions, hkeys]
    | none =>
      have hkeys : ¬ key x < key y := by
        rw [key, key, version_of_match hx, version_of_none hy]
        exact Sum.Lex.not_inr_lt_inl
      rw [naturalVersionOrder, hx, hy, decide_eq_false hkeys]
  | none =>
    cases hy : regexSearch y with
    | some my =>
      have hkeys : key x < key y := by
        rw [key, key, version_of_none hx, version_of_match hy]
        exact Sum.Lex.inl_lt_inr _ _
      rw [naturalVersionOrder, hx, hy, decide_eq_true hkeys]
    | none =>
      have hkeys : decide (key x < key y) = decide (pathKey x < pathKey y) := by
        apply decide_eq_decide.mpr
        rw [key, key, version_of_none hx, version_of_none hy]
        exact Sum.Lex.inl_lt_inl_iff
      rw [naturalVersionOrder, hx, hy, hkeys, pathLess_eq]

example : naturalVersionOrder "/opt/nxmap-3.9.0.5".toList "/opt/nxmap-3.11.1.4".toList =
    .ok true := by
  decide +kernel

/-- Otherwise the comparison leaves the matched text. -/
theorem naturalVersionOrder_beyond (h : ¬ Decided x y) :
    naturalVersionOrder x y = .error .beyond := by
  simp only [Decided, not_forall, not_not] at h
  obtain ⟨u, v, hu, hv, hpre⟩ := h
  obtain ⟨mx, hx, rfl⟩ := Option.map_eq_some_iff.mp hu
  obtain ⟨my, hy, rfl⟩ := Option.map_eq_some_iff.mp hv
  rw [naturalVersionOrder_walk hx hy, walk_of_isPrefix hpre]

theorem returns_iff : (∃ r, naturalVersionOrder x y = .ok r) ↔ Decided x y := by
  constructor
  · rintro ⟨r, hr⟩
    by_contra h
    rw [naturalVersionOrder_beyond h] at hr
    cases hr
  · exact fun h => ⟨_, naturalVersionOrder_of_decided h⟩

/-! ## The numbers of a version -/

def digitOf (d : Char) : Nat := d.toNat - '0'.toNat

/-- The number that a component stands for. -/
def number (c : List Char) : Nat := value 10 (c.map digitOf)

/-- A component that does not start with a zero, or is one. -/
def Plain (c : List Char) : Prop := c.head? ≠ some '0' ∨ c.length = 1

theorem isDigit_bounds {d : Char} (hd : d.isDigit = true) : 48 ≤ d.toNat ∧ d.toNat ≤ 57 :=
  Char.isDigit_iff_toNat.mp hd

theorem digitOf_spec {d e : Char} (hd : d.isDigit = true) (he : e.isDigit = true) :
    (digitOf d < digitOf e ↔ id d < id e) ∧ (digitOf d = digitOf e ↔ id d = id e) := by
  have hzero : '0'.toNat = 48 := rfl
  have hbd := isDigit_bounds hd
  have hbe := isDigit_bounds he
  have hlt : d < e ↔ d.toNat < e.toNat := Char.lt_def.trans UInt32.lt_iff_toNat_lt
  have heq : d = e ↔ d.toNat = e.toNat := Char.toNat_inj.symm
  rw [id, id, hlt, heq, digitOf, digitOf, hzero]
  omega

theorem digits_map (hc : DigitGroup c) : Digits 10 (c.map digitOf) := by
  intro n hn
  obtain ⟨d, hd, rfl⟩ := List.mem_map.mp hn
  have hb := isDigit_bounds (hc.2 d hd)
  have hzero : '0'.toNat = 48 := rfl
  rw [digitOf, hzero]
  omega

theorem noLeadingZero_map (hc : DigitGroup c) (hplain : Plain c) :
    NoLeadingZero (c.map digitOf) := by
  rcases hplain with hhead | hone
  · obtain ⟨d, c, rfl⟩ := List.exists_cons_of_ne_nil hc.1
    have hb := isDigit_bounds (hc.2 d List.mem_cons_self)
    have hne : d.toNat ≠ '0'.toNat := fun h => hhead (congrArg some (Char.toNat_inj.mp h))
    have hzero : '0'.toNat = 48 := rfl
    refine Or.inr ⟨digitOf d, c.map digitOf, rfl, ?_⟩
    rw [digitOf, hzero]
    omega
  · exact Or.inl (by rwa [List.length_map])

theorem map_digitOf_lt_iff (ha : DigitGroup a) (hb : DigitGroup b) :
    a.map digitOf < b.map digitOf ↔ a < b := by
  have h := map_lt_map_iff fun d hd e he => digitOf_spec (ha.2 d hd) (hb.2 e he)
  rwa [List.map_id, List.map_id] at h

/-- Components without leading zeros are ordered as their numbers. -/
theorem number_lt_iff (ha : DigitGroup a) (hb : DigitGroup b) (hpa : Plain a) (hpb : Plain b) :
    (number a < number b ↔ lengthKey a < lengthKey b) ∧
      (number a = number b ↔ lengthKey a = lengthKey b) := by
  have hinj : a.map digitOf = b.map digitOf ↔ a = b := by
    refine ⟨fun h => le_antisymm (not_lt.mp fun hlt => ?_) (not_lt.mp fun hlt => ?_), congrArg _⟩
    · exact ((map_digitOf_lt_iff hb ha).mpr hlt).ne h.symm
    · exact ((map_digitOf_lt_iff ha hb).mpr hlt).ne h
  obtain ⟨hlt, heq⟩ := value_lt_iff (digits_map ha) (digits_map hb) (noLeadingZero_map ha hpa)
    (noLeadingZero_map hb hpb)
  rw [lengthKey_lt_iff, List.length_map, List.length_map, map_digitOf_lt_iff ha hb,
    ← lengthKey_lt_iff] at hlt
  rw [lengthKey_inj, hinj, ← lengthKey_inj] at heq
  exact ⟨hlt, heq⟩

/-- The components of a version are groups of digits. -/
theorem digitGroup_of_version (h : version x = some u) : ∀ c ∈ u, DigitGroup c := by
  obtain ⟨m, hm, rfl⟩ := Option.map_eq_some_iff.mp h
  exact (regexSearch_spec hm).1

/-! ## The laws of the order -/

/-- What the order promises of three paths, besides that no path is before itself. -/
structure OrderLaws (x y z : List Char) : Prop where
  inside : ∀ p ∈ [(x, y), (y, x), (y, z), (z, y), (x, z), (z, x)],
    ∃ r, naturalVersionOrder p.1 p.2 = .ok r
  asymm : naturalVersionOrder x y = .ok true → naturalVersionOrder y x = .ok false
  trans : naturalVersionOrder x y = .ok true → naturalVersionOrder y z = .ok true →
    naturalVersionOrder x z = .ok true
  incomparable : naturalVersionOrder x y = .ok false → naturalVersionOrder y x = .ok false →
    naturalVersionOrder y z = .ok false → naturalVersionOrder z y = .ok false →
    naturalVersionOrder x z = .ok false ∧ naturalVersionOrder z x = .ok false
  unversioned : version x = none → version y ≠ none → naturalVersionOrder x y = .ok true
  numeric : ∀ u v, version x = some u → version y = some v → (∀ c ∈ u, Plain c) →
    (∀ c ∈ v, Plain c) →
    (naturalVersionOrder x y = .ok true ↔ u.map number < v.map number)

theorem eq_ok_iff (h : Decided x y) (r : Bool) :
    naturalVersionOrder x y = .ok r ↔ (r = true ↔ key x < key y) := by
  rw [naturalVersionOrder_of_decided h, Except.ok.injEq]
  cases r <;> simp

/-- The laws hold of three paths each two of which can be compared. -/
theorem orderLaws_of (hxy : Decided x y) (hyz : Decided y z) (hxz : Decided x z) :
    OrderLaws x y z where
  inside := by
    intro p hp
    apply returns_iff.mpr
    simp only [List.mem_cons, List.not_mem_nil, or_false] at hp
    rcases hp with rfl | rfl | rfl | rfl | rfl | rfl
    · exact hxy
    · exact hxy.symm
    · exact hyz
    · exact hyz.symm
    · exact hxz
    · exact hxz.symm
  asymm := by
    rw [eq_ok_iff hxy, eq_ok_iff hxy.symm]
    intro h
    simpa using (h.mp rfl).le
  trans := by
    rw [eq_ok_iff hxy, eq_ok_iff hyz, eq_ok_iff hxz]
    exact fun h h' => iff_of_true rfl ((h.mp rfl).trans (h'.mp rfl))
  incomparable := by
    rw [eq_ok_iff hxy, eq_ok_iff hxy.symm, eq_ok_iff hyz, eq_ok_iff hyz.symm, eq_ok_iff hxz,
      eq_ok_iff hxz.symm]
    simp only [Bool.false_eq_true, false_iff, not_lt]
    -- Paths that are not ordered have one key.
    exact fun hyx hxy hzy hyz => ⟨hzy.trans hyx, hxy.trans hyz⟩
  unversioned := by
    intro hx hy
    obtain ⟨v, hv⟩ := Option.ne_none_iff_exists'.mp hy
    rw [eq_ok_iff hxy, key, key, hx, hv]
    exact iff_of_true rfl (Sum.Lex.inl_lt_inr _ _)
  numeric := by
    intro u v hu hv hpu hpv
    have hnumbers : u.map number < v.map number ↔ u.map lengthKey < v.map lengthKey :=
      map_lt_map_iff fun c hc d hd => number_lt_iff (digitGroup_of_version hu c hc)
        (digitGroup_of_version hv d hd) (hpu c hc) (hpv d hd)
    rw [eq_ok_iff hxy, key, key, hu, hv, hnumbers]
    simp only [true_iff]
    exact Sum.Lex.inr_lt_inr_iff

theorem decided_self_iff : Decided x x ↔ version x = none := by
  constructor
  · intro h
    by_contra hne
    obtain ⟨u, hu⟩ := Option.ne_none_iff_exists'.mp hne
    exact h u u hu hu (Or.inl List.prefix_rfl)
  · intro hnone u v hu
    rw [hnone] at hu
    cases hu

/-- No path is before itself where it has no version, and the laws of the order hold of three paths
exactly where no two of them have versions of which one has all components of the other first. -/
theorem naturalVersionOrder_iff (x y z : List Char) :
    (naturalVersionOrder x x = .ok false ↔ version x = none) ∧
      (OrderLaws x y z ↔ Decided x y ∧ Decided y z ∧ Decided x z) := by
  refine ⟨?_, fun h => ?_, fun h => orderLaws_of h.1 h.2.1 h.2.2⟩
  · rw [← decided_self_iff]
    constructor
    · exact fun h => returns_iff.mp ⟨false, h⟩
    · intro h
      rw [eq_ok_iff h]
      simp
  · exact ⟨returns_iff.mp (h.inside (x, y) (by simp)), returns_iff.mp (h.inside (y, z) (by simp)),
      returns_iff.mp (h.inside (x, z) (by simp))⟩

/-- A path with a version cannot be compared with itself, nor a version with one that goes on. -/
theorem not_strictWeakOrder :
    ¬ naturalVersionOrder ['2', '.', '9'] ['2', '.', '9'] = .ok false ∧
      ¬ OrderLaws ['2', '.', '9'] ['2', '.', '9', '.', '1'] ['x'] := by
  refine ⟨by decide +kernel, fun h => ?_⟩
  obtain ⟨r, hr⟩ := h.inside (['2', '.', '9'], ['2', '.', '9', '.', '1']) (by simp)
  have hbeyond : naturalVersionOrder ['2', '.', '9'] ['2', '.', '9', '.', '1'] =
      .error .beyond := by decide +kernel
  rw [hbeyond] at hr
  cases hr

end NaturalVersionOrder
end Bambu
