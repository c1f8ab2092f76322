-- What a command is on the line to the device: the shell there splits it into the program and the
-- arguments, and its length is the one that is counted before.
import OpenwrtMcp.Command
import OpenwrtMcp.PosixWords
import OpenwrtMcp.Programs

open json openwrt_mcp_core posix programs text

namespace openwrt_mcp_device_codec

/-- An error of the first steps is one of all of them. -/
theorem bind_error {ε α β γ : Type} {x : Except ε α} {y : α → Except ε β} {f : β → Except ε γ}
    {e : ε} (h : (x >>= y) = .error e) : (x >>= fun a => y a >>= f) = .error e := by
  cases x with
  | error e' =>
    cases h
    rfl
  | ok a =>
    have hy : y a = .error e := h
    show (y a >>= f) = .error e
    rw [hy]
    rfl

/-! ## What a step writes -/

/-- The step appends these bytes, and fails just when there is no room for them. -/
def Writes (step : CommandBuffer → Except CodecError CommandBuffer) (bs : List UInt8) : Prop :=
  ∀ buffer : CommandBuffer,
    if buffer.bytes.length + bs.length ≤ MAX_COMMAND_BYTES then
      ∃ next, step buffer = .ok next ∧ next.bytes = buffer.bytes ++ bs
    else step buffer = .error .InvalidAction

namespace Writes

variable {step step' : CommandBuffer → Except CodecError CommandBuffer} {bs cs : List UInt8}

theorem append (bs : List UInt8) : Writes (CommandBuffer.append · bs) bs := by
  intro buffer
  have hle := buffer.bounded
  by_cases hroom : buffer.bytes.length + bs.length ≤ MAX_COMMAND_BYTES
  · have hfits : ¬ bs.length > MAX_COMMAND_BYTES - buffer.bytes.length := by omega
    rw [if_pos hroom]
    exact ⟨_, dif_neg hfits, rfl⟩
  · have hlong : bs.length > MAX_COMMAND_BYTES - buffer.bytes.length := by omega
    rw [if_neg hroom]
    exact dif_pos hlong

theorem nothing : Writes .ok [] := by
  intro buffer
  have hroom : buffer.bytes.length + ([] : List UInt8).length ≤ MAX_COMMAND_BYTES := buffer.bounded
  rw [if_pos hroom]
  exact ⟨buffer, rfl, by simp⟩

/-- One step after another. When the second has no room, the first may have had it or not. -/
theorem bind (h : Writes step bs) (h' : Writes step' cs) :
    Writes (fun buffer => step buffer >>= step') (bs ++ cs) := by
  intro buffer
  have hfirst := h buffer
  rw [List.length_append]
  by_cases hroom : buffer.bytes.length + bs.length ≤ MAX_COMMAND_BYTES
  · rw [if_pos hroom] at hfirst
    obtain ⟨next, hnext, hbytes⟩ := hfirst
    have hsecond := h' next
    rw [hbytes, List.length_append, Nat.add_assoc] at hsecond
    simp only [hnext]
    by_cases hall : buffer.bytes.length + (bs.length + cs.length) ≤ MAX_COMMAND_BYTES
    · rw [if_pos hall] at hsecond ⊢
      obtain ⟨last, hlast, heq⟩ := hsecond
      exact ⟨last, hlast, by rw [heq, List.append_assoc]⟩
    · rw [if_neg hall] at hsecond ⊢
      exact hsecond
  · rw [if_neg hroom] at hfirst
    have hall : ¬ buffer.bytes.length + (bs.length + cs.length) ≤ MAX_COMMAND_BYTES := by omega
    rw [if_neg hall]
    simp only [hfirst]
    rfl

end Writes

/-! ## One argument -/

def part_bytes (part : Str) : List UInt8 :=
  if part.getLast? = some '\'' then bytes part.dropLast ++ ascii "'\\''" else bytes part

theorem append_part_writes (part : Str) :
    Writes (CommandBuffer.append_part · part) (part_bytes part) := by
  unfold CommandBuffer.append_part part_bytes
  split
  · exact (Writes.append _).bind (Writes.append _)
  · exact Writes.append _

theorem append_parts_writes (parts : List Str) :
    Writes (CommandBuffer.append_parts · parts) (parts.flatMap part_bytes) := by
  induction parts with
  | nil => exact Writes.nothing
  | cons part parts ih =>
    rw [List.flatMap_cons]
    exact (append_part_writes part).bind ih

theorem part_ne_nil {c : Char} {s part : Str} (h : part ∈ CommandBuffer.split_inclusive c s) :
    part ≠ [] := by
  induction s generalizing part with
  | nil => cases h
  | cons x rest ih =>
    unfold CommandBuffer.split_inclusive at h
    split at h
    · rcases List.mem_cons.1 h with rfl | h
      · simp
      · exact ih h
    · split at h
      · rw [List.mem_singleton.1 h]
        simp
      · rename_i first parts hsplit
        rw [hsplit] at ih
        rcases List.mem_cons.1 h with rfl | h
        · simp
        · exact ih (List.mem_cons_of_mem _ h)

/-- Only a quote has the byte of a quote. -/
theorem quoted_char {c : Char} (h : c ≠ '\'') : quoted (bytes [c]) = bytes [c] := by
  have hbyte : ∀ b ∈ bytes [c], b ≠ APOSTROPHE := by
    intro b hb heq
    by_cases hlow : c.toNat < 128
    · rw [bytes_low hlow, List.mem_singleton, heq] at hb
      have hnat := congrArg UInt8.toNat hb
      rw [UInt8.toNat_ofNat', Nat.mod_eq_of_lt (by omega)] at hnat
      exact h (Char.toNat_inj.1 hnat.symm)
    · have := bytes_high (Nat.le_of_not_lt hlow) b hb
      rw [heq] at this
      exact absurd this (by decide)
  unfold quoted
  generalize bytes [c] = bs at hbyte
  induction bs with
  | nil => rfl
  | cons b bs ih =>
    rw [List.forall_mem_cons] at hbyte
    rw [List.flatMap_cons, if_neg hbyte.1, ih hbyte.2]
    rfl

/-- The parts are the quoted bytes. -/
theorem parts_quoted (s : Str) :
    (CommandBuffer.split_inclusive '\'' s).flatMap part_bytes = quoted (bytes s) := by
  have hapostrophe : bytes ['\''] = [APOSTROPHE] := by decide
  induction s with
  | nil => rfl
  | cons x rest ih =>
    rw [bytes_cons, quoted_append, ← ih, CommandBuffer.split_inclusive]
    by_cases hx : x = '\''
    · rw [if_pos hx, hx, List.flatMap_cons, hapostrophe]
      rfl
    · rw [if_neg hx, quoted_char hx]
      have hne : ∀ part ∈ CommandBuffer.split_inclusive '\'' rest, part ≠ [] :=
        fun _ => part_ne_nil
      cases hsplit : CommandBuffer.split_inclusive '\'' rest with
      | nil => simp [part_bytes, hx]
      | cons part parts =>
        rw [hsplit] at hne
        obtain ⟨y, tail, rfl⟩ := List.exists_cons_of_ne_nil (hne part List.mem_cons_self)
        have hpart : part_bytes (x :: y :: tail) = bytes [x] ++ part_bytes (y :: tail) := by
          unfold part_bytes
          rw [List.getLast?_cons_cons, List.dropLast_cons_cons, bytes_cons x (y :: tail),
            bytes_cons x (y :: tail).dropLast]
          split
          · rw [List.append_assoc]
          · rfl
        rw [List.flatMap_cons, hpart, List.flatMap_cons, List.append_assoc]

theorem argument_writes (value : Str) :
    Writes (CommandBuffer.argument · value) (32 :: quote (bytes value)) := by
  have hwrites := (Writes.append (ascii " '")).bind
    ((append_parts_writes (CommandBuffer.split_inclusive '\'' value)).bind
      (Writes.append (ascii "'")))
  have hbytes : ascii " '" ++ (quoted (bytes value) ++ ascii "'") = 32 :: quote (bytes value) := by
    rw [quote, List.cons_append]
    rfl
  rw [parts_quoted, hbytes] at hwrites
  exact hwrites

theorem encode_arguments_writes (arguments : List Str) :
    Writes (encode_arguments · arguments)
      ((arguments.map bytes).flatMap fun argument => 32 :: quote argument) := by
  induction arguments with
  | nil => exact Writes.nothing
  | cons argument arguments ih => exact (argument_writes argument).bind ih

/-! ## The whole command -/

namespace CommandSpec

def words (command : CommandSpec) : List Str := command.program :: command.arguments

/-- The bytes of the line: `exec`, and each word in quotes behind a blank. -/
def line (command : CommandSpec) : List UInt8 :=
  ascii "exec" ++ (command.words.map bytes).flatMap fun word => 32 :: quote word

/-- The length of a word with the blank and the quotes. -/
def quoted_length (word : Str) : Nat := len word + 3 + 3 * (bytes word).count APOSTROPHE

/-- The length of the line. -/
def line_length (command : CommandSpec) : Nat := 4 + (command.words.map quoted_length).sum

theorem length_line (command : CommandSpec) : command.line.length = command.line_length := by
  unfold line line_length
  rw [List.length_append, List.length_flatMap, List.map_map]
  have hword : ∀ word ∈ command.words,
      ((fun word => (32 :: quote word).length) ∘ bytes) word = quoted_length word := by
    intro word _
    simp only [Function.comp_apply, List.length_cons, length_quote, quoted_length, len]
    omega
  rw [List.map_congr_left hword]
  rfl

/-- The shell splits the line into the words of the command. -/
theorem split_line (command : CommandSpec) :
    split command.line = some (ascii "exec" :: command.words.map bytes) :=
  split_quoted (by decide) (by decide) _

theorem add_size_eq (total : Nat) (word : Str) : add_size total word =
    if total + quoted_length word < 2 ^ 64 then some (total + quoted_length word) else none := by
  have hquotes : (bytes word).countP (fun byte => byte = 39) = (bytes word).count APOSTROPHE :=
    List.countP_congr fun b _ => by simp [APOSTROPHE]
  unfold add_size checked_add checked_mul quoted_length
  rw [hquotes]
  generalize len word = n
  generalize (bytes word).count APOSTROPHE = quotes
  by_cases hall : total + (n + 3 + 3 * quotes) < 2 ^ 64
  · have h1 : total + n < 2 ^ 64 := by omega
    have h2 : total + n + 3 < 2 ^ 64 := by omega
    have h3 : quotes * 3 < 2 ^ 64 := by omega
    have h4 : total + n + 3 + quotes * 3 < 2 ^ 64 := by omega
    simp only [h1, h2, h3, h4, hall, if_true, Option.bind_eq_bind, Option.bind_some,
      Option.some.injEq]
    omega
  · rw [if_neg hall]
    split
    · simp only [Option.bind_eq_bind, Option.bind_some]
      split
      · simp only [Option.bind_some]
        split
        · simp only [Option.bind_some]
          exact if_neg (by omega)
        · rfl
      · rfl
    · rfl

theorem foldlM_add_size (words : List Str) {total : Nat} (h : total < 2 ^ 64) :
    words.foldlM add_size total = if total + (words.map quoted_length).sum < 2 ^ 64 then
      some (total + (words.map quoted_length).sum) else none := by
  induction words generalizing total with
  | nil =>
    rw [List.map_nil, List.sum_nil, Nat.add_zero, if_pos h]
    rfl
  | cons word words ih =>
    rw [List.foldlM_cons, add_size_eq, List.map_cons, List.sum_cons, ← Nat.add_assoc]
    by_cases hone : total + quoted_length word < 2 ^ 64
    · rw [if_pos hone]
      exact ih hone
    · rw [if_neg hone, if_neg (by omega)]
      rfl

/-- The size that is checked is the length of the line. -/
theorem size_le (command : CommandSpec) :
    (command.size.any fun size => size ≤ MAX_COMMAND_BYTES) = true ↔
      command.line_length ≤ MAX_COMMAND_BYTES := by
  have hmax : MAX_COMMAND_BYTES = 262144 := by decide
  unfold size line_length words
  rw [foldlM_add_size _ (by decide)]
  split
  · simp
  · simp only [Option.any_none, Bool.false_eq_true, false_iff]
    omega

/-- A command that is short enough is encoded as its line. -/
theorem encode_remote_eq (command : CommandSpec) : encode_remote command =
    if command.line_length ≤ MAX_COMMAND_BYTES then .ok command.line
    else .error .InvalidAction := by
  have hwrites := (argument_writes command.program).bind
    (encode_arguments_writes command.arguments) ⟨ascii "exec", by decide⟩
  have hlength := command.length_line
  have hline : command.line = ascii "exec" ++ (32 :: quote (bytes command.program) ++
      (command.arguments.map bytes).flatMap fun argument => 32 :: quote argument) := rfl
  rw [hline, List.length_append] at hlength
  rw [hlength] at hwrites
  unfold encode_remote
  split at hwrites
  · rename_i hle
    obtain ⟨output, houtput, hbytes⟩ := hwrites
    obtain ⟨middle, hmiddle, houtput⟩ := except_bind_ok.1 houtput
    rw [if_pos hle, hline, ← hbytes]
    exact except_bind_ok.2 ⟨middle, hmiddle, except_bind_ok.2 ⟨output, houtput, rfl⟩⟩
  · rename_i hlong
    rw [if_neg hlong]
    exact bind_error hwrites

end CommandSpec

end openwrt_mcp_device_codec
