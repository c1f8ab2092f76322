-- The result of a call, as the client gets it: a copy of the value as a text and one as a
-- structure, counted before they are sent.
import OpenwrtMcp.JsonText
import OpenwrtMcp.NormalizedResult

open json text
open openwrt_mcp_core.normalized (check_normalized_result check_normalized_result_ok)
open openwrt_mcp_core.projection (MAX_NORMALIZED_BYTES)

namespace openwrt_mcp_mcp.result

def MAX_CALL_RESULT_BYTES : Nat := 262144

structure CallToolResult where
  content : List Str
  structured_content : Option Value
  is_error : Option Bool

/-- What the serializer writes, in the pieces in which it writes it. -/
structure Serializer where
  to_writer : Value → List (List UInt8)
  result_to_writer : CallToolResult → List (List UInt8)

structure Counter where
  remaining : Nat

def Counter.write (counter : Counter) (bytes : List UInt8) : Option Counter :=
  if bytes.length ≤ counter.remaining then some ⟨counter.remaining - bytes.length⟩ else none

def fits (limit : Nat) (writes : List (List UInt8)) : Bool :=
  (writes.foldlM Counter.write ⟨limit⟩).isSome

def failure (code : String) : CallToolResult where
  content := [encode (.Object [("error".toList, .String code.toList)])]
  structured_content := none
  is_error := some true

def success (w : Serializer) (value : Value) : CallToolResult :=
  if !fits MAX_NORMALIZED_BYTES (w.to_writer value) then failure "output_limit"
  else
    let result : CallToolResult := ⟨[encode value], some value, some false⟩
    if !fits MAX_CALL_RESULT_BYTES (w.result_to_writer result) then failure "output_limit"
    else result

/-! ## The count -/

/-- The pieces fit when all of them together do. -/
theorem fits_iff {limit : Nat} {writes : List (List UInt8)} :
    fits limit writes = true ↔ writes.flatten.length ≤ limit := by
  unfold fits
  induction writes generalizing limit with
  | nil => simp
  | cons bytes rest ih =>
    rw [List.foldlM_cons, List.flatten_cons, List.length_append]
    by_cases hle : bytes.length ≤ limit
    · have hwrite : Counter.write ⟨limit⟩ bytes = some ⟨limit - bytes.length⟩ := by
        simp [Counter.write, hle]
      rw [hwrite]
      show (rest.foldlM Counter.write ⟨limit - bytes.length⟩).isSome = true ↔ _
      rw [ih]
      omega
    · have hwrite : Counter.write ⟨limit⟩ bytes = none := by
        simp [Counter.write, hle]
      rw [hwrite]
      constructor
      · intro h
        cases h
      · intro h
        omega

/-- The encoding is the compact one, and the envelope of a success is small. -/
structure Serializer.Compact (w : Serializer) : Prop where
  value : ∀ v, (w.to_writer v).flatten = bytes (encode v)
  envelope : ∀ text v, (w.result_to_writer ⟨[text], some v, some false⟩).flatten.length ≤
    text_cost text + size v + 1024

/-- A result that passed the check reaches the client. -/
theorem a_checked_result_is_returned {w : Serializer} (hw : w.Compact) {v : Value}
    (hprinted : Printed v) (h : check_normalized_result v = .ok ()) :
    success w v = ⟨[encode v], some v, some false⟩ ∧ success w v ≠ failure "output_limit" ∧
      text_cost (encode v) ≤ 2 * size v + 2 := by
  have hcost := text_cost_encode_le hprinted
  obtain ⟨-, hsize, -⟩ := check_normalized_result_ok.1 h
  have hvalue : fits MAX_NORMALIZED_BYTES (w.to_writer v) = true := by
    rw [fits_iff, hw.value]
    exact hsize
  have hresult : fits MAX_CALL_RESULT_BYTES
      (w.result_to_writer ⟨[encode v], some v, some false⟩) = true := by
    rw [fits_iff]
    have henvelope := hw.envelope (encode v) v
    unfold MAX_NORMALIZED_BYTES at hsize
    unfold MAX_CALL_RESULT_BYTES
    omega
  have hsuccess : success w v = ⟨[encode v], some v, some false⟩ := by
    unfold success
    simp only [hvalue, hresult, Bool.not_true, Bool.false_eq_true, if_false]
  refine ⟨hsuccess, ?_, hcost⟩
  rw [hsuccess]
  intro heq
  have := congrArg CallToolResult.structured_content heq
  cases this

/-! ## An envelope -/

/-- The members of a success, as they stand in the protocol. -/
def envelope (result : CallToolResult) : Value :=
  let block (text : Str) : Value :=
    .Object [("type".toList, .String "text".toList), ("text".toList, .String text)]
  .Object [("resultType".toList, .String "complete".toList),
    ("content".toList, .Array (result.content.map block)),
    ("structuredContent".toList, result.structured_content.getD .Null),
    ("isError".toList, .Bool (result.is_error.getD false))]

/-- A serializer that writes all at once. -/
def at_once : Serializer where
  to_writer v := [bytes (encode v)]
  result_to_writer result := [bytes (encode (envelope result))]

theorem at_once_compact : at_once.Compact where
  value v := by simp [at_once]
  envelope text v := by
    have htext : size (.String text) = text_cost text := len_encode_text text
    have htype : size (.String "text".toList) = 6 := by decide
    have hfalse : size (.Bool false) = 5 := by decide
    have hcomplete : size (.String "complete".toList) = 10 := by decide
    have hkeys : text_cost "type".toList = 6 ∧ text_cost "text".toList = 6 ∧
        text_cost "content".toList = 9 ∧ text_cost "structuredContent".toList = 19 ∧
        text_cost "isError".toList = 9 ∧ text_cost "resultType".toList = 12 := by decide
    obtain ⟨h1, h2, h3, h4, h5, h6⟩ := hkeys
    have hsize : size (envelope ⟨[text], some v, some false⟩) = text_cost text + size v + 98 := by
      simp only [envelope, List.map_cons, List.map_nil, Option.getD_some, size_object, size_array,
        field_size, List.sum_cons, List.sum_nil, List.length_cons, List.length_nil, htext, htype,
        hfalse, hcomplete, h1, h2, h3, h4, h5, h6]
      omega
    have hle : (bytes (encode (envelope ⟨[text], some v, some false⟩))).length ≤
        text_cost text + size v + 1024 := by
      show size (envelope ⟨[text], some v, some false⟩) ≤ _
      omega
    simpa [at_once] using hle

/-- A value with all that is escaped twice in the copy that is a text, and with a float. -/
def spoken : Value :=
  .Object [("say".toList, .Array [.String ['"', '\\', Char.ofNat 1, Char.ofNat 10],
    .Number (.Float "1.5e-7".toList)])]

/-- Its compact text, in which the characters stand escaped once. -/
def spoken_text : Str :=
  "\x7b\"say\":[\"\\\"\\\\\\u0001\\n\",1.5e-7]\x7d".toList

theorem a_spoken_result_is_returned :
    success at_once spoken = ⟨[spoken_text], some spoken, some false⟩ ∧
      len spoken_text = 31 ∧ text_cost spoken_text = 43 := by
  have hfloat : ∀ c ∈ "1.5e-7".toList, c ∈ "0123456789+-.eE".toList := by simp
  have hprinted : Printed spoken := by
    simpa only [spoken, Printed, printed_fields, printed_items, and_true, true_and] using hfloat
  have hencoded : encode spoken = spoken_text := by decide
  refine ⟨?_, by decide, by decide⟩
  rw [← hencoded]
  exact (a_checked_result_is_returned at_once_compact hprinted (by decide)).1

end openwrt_mcp_mcp.result
