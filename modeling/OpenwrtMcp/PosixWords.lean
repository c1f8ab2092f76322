-- The words of a simple command as a POSIX shell splits it, with single quotes and backslashes. A
-- byte that means anything else to the shell, and is not quoted, stops the split.
import Mathlib

namespace posix

def APOSTROPHE : UInt8 := 39
def BACKSLASH : UInt8 := 92
def NEWLINE : UInt8 := 10

def is_blank (b : UInt8) : Bool := b = 32 || b = 9

/-- The bytes that are an operator, an expansion, a pattern or a comment when they are not
quoted: the end of a line, and ``! " # $ % & ( ) * ; < = > ? [ ] ` { | } ~``. -/
def is_special (b : UInt8) : Bool :=
  b ∈ [NEWLINE, 33, 34, 35, 36, 37, 38, 40, 41, 42, 59, 60, 61, 62, 63, 91, 93, 96, 123, 124, 125,
    126]

/-- A byte that stands for itself. -/
def is_plain (b : UInt8) : Bool :=
  b ≠ APOSTROPHE && b ≠ BACKSLASH && !is_blank b && !is_special b

inductive Mode
  | Bare
  | Quoted
  | Escaped
  deriving DecidableEq

/-- The words that are complete, and the one that has begun, if one has. -/
structure Scan where
  words : List (List UInt8)
  word : Option (List UInt8)
  mode : Mode
  deriving DecidableEq

namespace Scan

def start : Scan := ⟨[], none, .Bare⟩

def push (s : Scan) (b : UInt8) : Scan := { s with word := some (s.word.getD [] ++ [b]) }

/-- A blank ends the word that has begun. -/
def cut (s : Scan) : Scan := { s with words := s.words ++ s.word.toList, word := none }

def step (s : Scan) (b : UInt8) : Option Scan :=
  match s.mode with
  | .Quoted => if b = APOSTROPHE then some { s with mode := .Bare } else some (s.push b)
  | .Escaped =>
    -- A line goes on behind a backslash at its end.
    if b = NEWLINE then some { s with mode := .Bare }
    else some { s.push b with mode := .Bare }
  | .Bare =>
    if b = APOSTROPHE then some { s with word := some (s.word.getD []), mode := .Quoted }
    else if b = BACKSLASH then some { s with mode := .Escaped }
    else if is_blank b then some s.cut
    else if is_special b then none
    else some (s.push b)

/-- The text may end only outside of quotes. -/
def finish (s : Scan) : Option (List (List UInt8)) :=
  if s.mode = .Bare then some s.cut.words else none

end Scan

open Scan

def split (text : List UInt8) : Option (List (List UInt8)) := (text.foldlM step start).bind finish

/-! ## A quoted word -/

/-- The bytes between single quotes. A quote among them ends the quotes, is escaped, and begins
them again. -/
def quoted (bytes : List UInt8) : List UInt8 :=
  bytes.flatMap fun b =>
    if b = APOSTROPHE then [APOSTROPHE, BACKSLASH, APOSTROPHE, APOSTROPHE] else [b]

def quote (bytes : List UInt8) : List UInt8 := APOSTROPHE :: quoted bytes ++ [APOSTROPHE]

theorem quoted_append (s t : List UInt8) : quoted (s ++ t) = quoted s ++ quoted t :=
  List.flatMap_append

/-- A quote takes three bytes more. -/
theorem length_quoted (bytes : List UInt8) :
    (quoted bytes).length = bytes.length + 3 * bytes.count APOSTROPHE := by
  induction bytes with
  | nil => rfl
  | cons b bytes ih =>
    rw [← List.singleton_append, quoted_append, List.length_append, ih, List.count_append,
      List.length_append]
    by_cases hb : b = APOSTROPHE
    · simp [quoted, hb]
      omega
    · simp [quoted, hb]
      omega

theorem length_quote (bytes : List UInt8) :
    (quote bytes).length = bytes.length + 3 * bytes.count APOSTROPHE + 2 := by
  simp [quote, length_quoted]

/-- Inside of quotes every byte goes to the word. -/
theorem scan_quoted (bytes word : List UInt8) (words : List (List UInt8)) :
    (quoted bytes).foldlM step ⟨words, some word, .Quoted⟩ =
      some ⟨words, some (word ++ bytes), .Quoted⟩ := by
  induction bytes generalizing word with
  | nil => simp [quoted]
  | cons b bytes ih =>
    rw [← List.singleton_append, quoted_append, List.foldlM_append]
    have hone : (quoted [b]).foldlM step ⟨words, some word, .Quoted⟩ =
        some ⟨words, some (word ++ [b]), .Quoted⟩ := by
      by_cases hb : b = APOSTROPHE
      · simp [quoted, hb, step, push, APOSTROPHE, BACKSLASH, NEWLINE]
      · simp [quoted, hb, step, push]
    rw [hone]
    simpa using ih (word ++ [b])

theorem scan_quote (bytes : List UInt8) (words : List (List UInt8)) :
    (quote bytes).foldlM step ⟨words, none, .Bare⟩ = some ⟨words, some bytes, .Bare⟩ := by
  have hopen : step ⟨words, none, .Bare⟩ APOSTROPHE = some ⟨words, some [], .Quoted⟩ := by
    simp [step]
  rw [quote, List.cons_append, List.foldlM_cons, hopen]
  simp [List.foldlM_append, scan_quoted, step]

/-- A quoted word behind a blank. -/
theorem scan_word (bytes : List UInt8) (s : Scan) (hbare : s.mode = .Bare) :
    (32 :: quote bytes).foldlM step s = some ⟨s.cut.words, some bytes, .Bare⟩ := by
  have hblank : step s 32 = some ⟨s.cut.words, none, .Bare⟩ := by
    simp [step, hbare, APOSTROPHE, BACKSLASH, is_blank, cut]
  rw [List.foldlM_cons, hblank]
  exact scan_quote bytes _

/-- Every quoted word is one word, whatever its bytes. -/
theorem scan_words (args : List (List UInt8)) (s : Scan) (hbare : s.mode = .Bare) :
    ∃ t, (args.flatMap fun arg => 32 :: quote arg).foldlM step s = some t ∧ t.mode = .Bare ∧
      t.cut.words = s.cut.words ++ args := by
  induction args generalizing s with
  | nil => exact ⟨s, rfl, hbare, by simp⟩
  | cons arg args ih =>
    obtain ⟨t, ht, hmode, hwords⟩ := ih ⟨s.cut.words, some arg, .Bare⟩ rfl
    refine ⟨t, ?_, hmode, ?_⟩
    · rw [List.flatMap_cons, List.foldlM_append, scan_word arg s hbare]
      exact ht
    · rw [hwords]
      simp [cut]

theorem scan_plain (bytes word : List UInt8) (words : List (List UInt8))
    (h : bytes.all is_plain = true) :
    bytes.foldlM step ⟨words, some word, .Bare⟩ = some ⟨words, some (word ++ bytes), .Bare⟩ := by
  induction bytes generalizing word with
  | nil => simp
  | cons b bytes ih =>
    rw [List.all_cons, Bool.and_eq_true] at h
    have hone : step ⟨words, some word, .Bare⟩ b = some ⟨words, some (word ++ [b]), .Bare⟩ := by
      have hplain := h.1
      simp only [is_plain, Bool.and_eq_true, decide_eq_true_eq, Bool.not_eq_true'] at hplain
      simp [step, hplain, push]
    rw [List.foldlM_cons, hone]
    simpa using ih (word ++ [b]) h.2

/-- A plain word, and quoted words behind it. -/
theorem split_quoted {name : List UInt8} (hne : name ≠ []) (hplain : name.all is_plain = true)
    (args : List (List UInt8)) :
    split (name ++ args.flatMap fun arg => 32 :: quote arg) = some (name :: args) := by
  obtain ⟨b, rest, rfl⟩ := List.exists_cons_of_ne_nil hne
  rw [List.all_cons, Bool.and_eq_true] at hplain
  have hfirst : step start b = some ⟨[], some [b], .Bare⟩ := by
    have hb := hplain.1
    simp only [is_plain, Bool.and_eq_true, decide_eq_true_eq, Bool.not_eq_true'] at hb
    simp [step, start, hb, push]
  have hname : (b :: rest).foldlM step start = some ⟨[], some (b :: rest), .Bare⟩ := by
    rw [List.foldlM_cons, hfirst]
    exact scan_plain rest [b] [] hplain.2
  obtain ⟨t, ht, hmode, hwords⟩ := scan_words args ⟨[], some (b :: rest), .Bare⟩ rfl
  rw [split, List.foldlM_append, hname]
  simp only [Option.bind_eq_bind, Option.bind_some, ht, finish, hmode, if_true, hwords]
  simp [cut]

end posix
