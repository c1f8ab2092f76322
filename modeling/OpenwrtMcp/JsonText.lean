-- The compact text of a document, as a text in another document: its quotes and its backslashes
-- are escaped again, and there is nothing else in it to escape.
import OpenwrtMcp.Json

open text

namespace json

mutual

/-- The text of every float is one of a number. -/
def Printed : Value → Prop
  | .Number (.Float text) => ∀ c ∈ text, c ∈ "0123456789+-.eE".toList
  | .Array items => printed_items items
  | .Object fields => printed_fields fields
  | _ => True

def printed_items : List Value → Prop
  | [] => True
  | v :: rest => Printed v ∧ printed_items rest

def printed_fields : List (Str × Value) → Prop
  | [] => True
  | (_, v) :: rest => Printed v ∧ printed_fields rest

end

/-- No character of the text is a control character below the space. -/
def Quiet (s : Str) : Prop := ∀ c ∈ s, 32 ≤ c.toNat

theorem quiet_nil : Quiet [] := by simp [Quiet]

theorem quiet_of_all {s : Str} (h : (s.all fun c => 32 ≤ c.toNat) = true) : Quiet s := by
  simpa [Quiet] using h

theorem quiet_cons {c : Char} {s : Str} : Quiet (c :: s) ↔ 32 ≤ c.toNat ∧ Quiet s := by
  simp [Quiet]

theorem Quiet.append {s t : Str} (hs : Quiet s) (ht : Quiet t) : Quiet (s ++ t) := by
  intro c hc
  rcases List.mem_append.1 hc with hc | hc
  · exact hs c hc
  · exact ht c hc

theorem Quiet.bytes {s : Str} (h : Quiet s) : ∀ b ∈ bytes s, 32 ≤ b.toNat := by
  intro b hb
  obtain ⟨c, hc, hmem⟩ := List.mem_flatMap.1 hb
  have hin : b ∈ text.bytes [c] := by simpa [text.bytes] using hmem
  have hquiet := h c hc
  by_cases hlow : c.toNat < 128
  · rw [bytes_low hlow, List.mem_singleton] at hin
    rw [hin, UInt8.toNat_ofNat']
    omega
  · have := bytes_high (Nat.le_of_not_lt hlow) b hin
    omega

theorem byte_cost_le_two {b : UInt8} (h : 32 ≤ b.toNat) : byte_cost b ≤ 2 := by
  have hlow : ¬ b < 32 := by
    intro hlt
    have : b.toNat < 32 := hlt
    omega
  unfold byte_cost
  by_cases hin : b ∈ [34, 92, 8, 9, 10, 12, 13]
  · rw [if_pos hin]
  · rw [if_neg hin, if_neg hlow]
    omega

theorem Quiet.text_cost_le {s : Str} (h : Quiet s) : text_cost s ≤ 2 * len s + 2 := by
  have hsum : ∀ l : List UInt8, (∀ b ∈ l, 32 ≤ b.toNat) → (l.map byte_cost).sum ≤ 2 * l.length := by
    intro l
    induction l with
    | nil => simp
    | cons b l ih =>
      intro hl
      rw [List.forall_mem_cons] at hl
      have hone := byte_cost_le_two hl.1
      have hrest := ih hl.2
      rw [List.map_cons, List.sum_cons, List.length_cons]
      omega
  have := hsum (text.bytes s) h.bytes
  unfold text_cost len
  omega

/-! ## The parts of a text -/

theorem quiet_encode_char (c : Char) : Quiet (encode_char c) := by
  by_cases hlow : c.toNat < 128
  · have hall : ∀ n : Fin 128, ((encode_char (Char.ofNat n.1)).all fun d => 32 ≤ d.toNat) =
      true := by
      decide
    have := hall ⟨c.toNat, hlow⟩
    rw [Char.ofNat_toNat] at this
    exact quiet_of_all this
  · have hsame : ∀ d ∈ encode_char c, 32 ≤ d.toNat := by
      unfold encode_char
      have hquote : c ≠ '"' := by
        rintro rfl
        exact absurd hlow (by decide)
      have hslash : c ≠ '\\' := by
        rintro rfl
        exact absurd hlow (by decide)
      rw [if_neg hquote, if_neg hslash, if_neg (by omega), if_neg (by omega), if_neg (by omega),
        if_neg (by omega), if_neg (by omega), if_neg (by omega)]
      intro d hd
      rw [List.mem_singleton] at hd
      rw [hd]
      omega
    exact hsame

theorem quiet_encode_text (s : Str) : Quiet (encode_text s) := by
  have hbody : Quiet (s.flatMap encode_char) := by
    intro c hc
    obtain ⟨d, -, hin⟩ := List.mem_flatMap.1 hc
    exact quiet_encode_char d c hin
  have hquote : Quiet ['"'] := by
    rw [quiet_cons]
    exact ⟨by decide, quiet_nil⟩
  unfold encode_text
  exact (quiet_cons.2 ⟨by decide, hbody⟩).append hquote

theorem quiet_decimal (n : Nat) : Quiet (decimal n) := by
  intro c hc
  have := Nat.isDigit_of_mem_toDigits (by decide) (by decide) hc
  have hge : '0'.val ≤ c.val := by simpa [Char.isDigit] using (Bool.and_eq_true_iff.1 this).1
  have hnat : '0'.val.toNat ≤ c.val.toNat := hge
  have hzero : '0'.val.toNat = 48 := by decide
  show 32 ≤ c.val.toNat
  omega

theorem quiet_signed_decimal (n : Int) : Quiet (signed_decimal n) := by
  unfold signed_decimal
  by_cases hn : 0 ≤ n
  · rw [if_pos hn]
    exact quiet_decimal _
  · rw [if_neg hn]
    exact quiet_cons.2 ⟨by decide, quiet_decimal _⟩

theorem quiet_commas {parts : List Str} (h : ∀ part ∈ parts, Quiet part) :
    Quiet (commas parts) := by
  unfold commas
  induction parts with
  | nil => simpa [List.intercalate] using quiet_nil
  | cons first rest ih =>
    rw [List.forall_mem_cons] at h
    cases rest with
    | nil => simpa [List.intercalate] using h.1
    | cons second rest =>
      have hcons : [','].intercalate (first :: second :: rest) =
          first ++ (',' :: [','].intercalate (second :: rest)) := by
        simp [List.intercalate, List.intersperse]
      rw [hcons]
      exact h.1.append (quiet_cons.2 ⟨by decide, ih h.2⟩)

mutual

theorem quiet_encode : (v : Value) → Printed v → Quiet (encode v)
  | .Null, _ => quiet_of_all (by decide)
  | .Bool true, _ => quiet_of_all (by decide)
  | .Bool false, _ => quiet_of_all (by decide)
  | .Number (.PosInt n), _ => quiet_decimal _
  | .Number (.NegInt n), _ => quiet_signed_decimal _
  | .Number (.Float text), h => by
    have hall : Quiet "0123456789+-.eE".toList := quiet_of_all (by decide)
    intro c hc
    rw [Printed] at h
    exact hall c (h c hc)
  | .String value, _ => quiet_encode_text value
  | .Array items, h => by
    rw [Printed] at h
    rw [encode, List.cons_append, quiet_cons]
    exact ⟨by decide, (quiet_commas (quiet_encode_items items h)).append (by simp [Quiet])⟩
  | .Object fields, h => by
    rw [Printed] at h
    rw [encode, List.cons_append, quiet_cons]
    exact ⟨by decide, (quiet_commas (quiet_encode_fields fields h)).append (by simp [Quiet])⟩

theorem quiet_encode_items : (items : List Value) → printed_items items →
    ∀ part ∈ encode_items items, Quiet part
  | [], _ => by simp [encode_items]
  | v :: rest, h => by
    rw [printed_items] at h
    rw [encode_items, List.forall_mem_cons]
    exact ⟨quiet_encode v h.1, quiet_encode_items rest h.2⟩

theorem quiet_encode_fields : (fields : List (Str × Value)) → printed_fields fields →
    ∀ part ∈ encode_fields fields, Quiet part
  | [], _ => by simp [encode_fields]
  | (key, v) :: rest, h => by
    rw [printed_fields] at h
    rw [encode_fields, List.forall_mem_cons]
    refine ⟨?_, quiet_encode_fields rest h.2⟩
    exact (quiet_encode_text key).append (quiet_cons.2 ⟨by decide, quiet_encode v h.1⟩)

end

/-- The text of a document takes at most twice its bytes and two quotes in another one. -/
theorem text_cost_encode_le {v : Value} (h : Printed v) : text_cost (encode v) ≤ 2 * size v + 2 :=
  (quiet_encode v h).text_cost_le

end json
