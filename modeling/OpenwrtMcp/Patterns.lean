-- Regular expressions of the plain kind: anchors, classes of characters and how often one may
-- repeat. The text of a pattern is parsed, and a pattern is looked for anywhere in a text.
import OpenwrtMcp.Text

open text

namespace patterns

inductive Item
  | Begin
  | Finish
  | Repeat (ranges : List (Char × Char)) (min : Nat) (max : Option Nat)
  deriving DecidableEq

def in_ranges (ranges : List (Char × Char)) (c : Char) : Bool :=
  ranges.any fun r => r.1 ≤ c && c ≤ r.2

def within (n min : Nat) (max : Option Nat) : Bool := min ≤ n && max.all (n ≤ ·)

/-! ## Matching -/

/-- The items match a part of the text that starts here. `first`: nothing stands before it. -/
def match_here : List Item → Bool → Str → Bool
  | [], _, _ => true
  | .Begin :: rest, first, s => first && match_here rest first s
  | .Finish :: rest, first, s => s.isEmpty && match_here rest first s
  | .Repeat ranges min max :: rest, first, s =>
    (List.range (s.length + 1)).any fun n =>
      within n min max && (s.take n).all (in_ranges ranges) &&
        match_here rest (first && n = 0) (s.drop n)

def search (items : List Item) (s : Str) : Bool :=
  (List.range (s.length + 1)).any fun n => match_here items (n = 0) (s.drop n)

theorem match_here_repeat {ranges : List (Char × Char)} {min : Nat} {max : Option Nat}
    {rest : List Item} {first : Bool} {s t : Str} (hcount : within s.length min max = true)
    (hall : s.all (in_ranges ranges) = true)
    (h : match_here rest (first && s.length = 0) t = true) :
    match_here (.Repeat ranges min max :: rest) first (s ++ t) = true := by
  unfold match_here
  rw [List.any_eq_true]
  refine ⟨s.length, by simp, ?_⟩
  rw [List.take_left, List.drop_left, hcount, hall, h]
  rfl

/-- A text that is matched from its first character on. -/
theorem search_of_match_here {items : List Item} {s : Str} (h : match_here items true s = true) :
    search items s = true := by
  unfold search
  rw [List.any_eq_true]
  exact ⟨0, by simp, by simpa using h⟩

/-! ## The text of a pattern -/

/-- The characters between `[` and `]`: single ones and ranges. -/
def parse_class : Str → Option (List (Char × Char) × Str)
  | [] => none
  | ']' :: rest => some ([], rest)
  | low :: '-' :: high :: rest =>
    if high = ']' || low ∈ ['\\', '^', '['] then none
    else (parse_class rest).map fun p => ((low, high) :: p.1, p.2)
  | c :: rest =>
    if c ∈ ['\\', '^', '['] then none
    else (parse_class rest).map fun p => ((c, c) :: p.1, p.2)

def digits_of (s : Str) : Option Nat :=
  if s ≠ [] && s.all Char.isDigit then some (parse_digits s) else none

/-- How often: `*`, `+`, `?`, `\x7bm\x7d`, `\x7bm,\x7d` and `\x7bm,n\x7d`, or once. -/
def parse_count : Str → Option ((Nat × Option Nat) × Str)
  | '*' :: rest => some ((0, none), rest)
  | '+' :: rest => some ((1, none), rest)
  | '?' :: rest => some ((0, some 1), rest)
  | '\x7b' :: rest =>
    let body := rest.takeWhile (· ≠ '\x7d')
    let low := body.takeWhile (· ≠ ',')
    match rest.dropWhile (· ≠ '\x7d'), body.dropWhile (· ≠ ',') with
    | _ :: rest, [] => (digits_of low).map fun n => ((n, some n), rest)
    | _ :: rest, [_] => (digits_of low).map fun n => ((n, none), rest)
    | _ :: rest, _ :: high =>
      (digits_of low).bind fun n => (digits_of high).map fun m => ((n, some m), rest)
    | [], _ => none
  | s => some ((1, some 1), s)

/-- The class that the next character or bracket stands for. -/
def parse_atom : Str → Option (List (Char × Char) × Str)
  | '[' :: rest => parse_class rest
  | '\\' :: c :: rest => if c.isAlphanum then none else some ([(c, c)], rest)
  | c :: rest => if c ∈ "\\.()|*+?\x7b".toList then none else some ([(c, c)], rest)
  | [] => none

/-- The fuel is the length of the text: every item takes a character of it. -/
def parse_items : Nat → Str → Option (List Item)
  | _, [] => some []
  | 0, _ => none
  | fuel + 1, '^' :: rest => (parse_items fuel rest).map (.Begin :: ·)
  | fuel + 1, '$' :: rest => (parse_items fuel rest).map (.Finish :: ·)
  | fuel + 1, s =>
    (parse_atom s).bind fun atom =>
      (parse_count atom.2).bind fun count =>
        (parse_items fuel count.2).map (.Repeat atom.1 count.1.1 count.1.2 :: ·)

/-- A pattern of another kind (alternatives, groups, classes by name) is not parsed. -/
def parse_pattern (s : Str) : Option (List Item) := parse_items s.length s

def matches_pattern (pattern s : Str) : Bool := (parse_pattern pattern).any (search · s)

end patterns
