-- A decoder of JSON as its visitors see it: the parts of a document one after another, and then
-- whether the text ends there. Which decoder it is stays open.
import OpenwrtMcp.Json
import OpenwrtMcp.JsonGrammar
import OpenwrtMcp.Utf8

open json json.grammar text

namespace serde_json

/-- What the visitors of a value are given. A decoder that finds no more of a document stops
with an error of its own: in place of a value, or before a sequence or a map is closed. -/
inductive Node
  | Fail
  | Unit
  | Bool (value : Bool)
  | I64 (value : Int64)
  | U64 (value : UInt64)
  | F64 (finite : Option Str)
  | Str (value : Str)
  | Seq (items : List Node) (closed : Bool)
  | Map (fields : List (Str × Node)) (closed : Bool)

/-- A number that was read. -/
inductive ParserNumber
  | F64 (value : Str)
  | U64 (value : UInt64)
  | I64 (value : Int64)

structure Decoder where
  /-- The number that a lexeme stands for. There is none for a float that is not finite. -/
  number : Str → Option ParserNumber
  /-- The value at the start of the bytes, and whether only white space is behind it. -/
  from_slice : List UInt8 → Node × Bool

namespace Decoder

def from_str (decoder : Decoder) (s : Str) : Node × Bool := decoder.from_slice (bytes s)

end Decoder

/-! ## Documents -/

section
variable (number : Str → Option ParserNumber)

def number_node : Option ParserNumber → Node
  | none => .Fail
  | some (.F64 value) => .F64 (some value)
  | some (.U64 value) => .U64 value
  | some (.I64 value) => .I64 value

def number_value : ParserNumber → Value
  | .F64 value => .Number (.Float value)
  | .U64 value => .Number (.PosInt value)
  | .I64 value => from_i64 value

mutual

/-- What a document gives to its visitors. -/
def node : Tree → Node
  | .Null => .Unit
  | .Bool value => .Bool value
  | .Number lexeme => number_node (number lexeme)
  | .String value => .Str value
  | .Array items => .Seq (item_nodes items) true
  | .Object fields => .Map (field_nodes fields) true

def item_nodes : List Tree → List Node
  | [] => []
  | item :: rest => node item :: item_nodes rest

def field_nodes : List (Str × Tree) → List (Str × Node)
  | [] => []
  | (key, value) :: rest => (key, node value) :: field_nodes rest

end

mutual

/-- The value of a document without any limits. There is one when all its numbers are finite. -/
def plain : Tree → Option Value
  | .Null => some .Null
  | .Bool value => some (.Bool value)
  | .Number lexeme => (number lexeme).map number_value
  | .String value => some (.String value)
  | .Array items => (plain_items items).map .Array
  | .Object fields => (plain_fields fields []).map .Object

def plain_items : List Tree → Option (List Value)
  | [] => some []
  | item :: rest => (plain item).bind fun v => (plain_items rest).map (v :: ·)

/-- A member that comes again replaces the one before. -/
def plain_fields : List (Str × Tree) → Map → Option Map
  | [], values => some values
  | (key, value) :: rest, values =>
    (plain value).bind fun v => plain_fields rest (values.insert key v)

end

end

mutual

/-- The containers on the longest path. -/
def nesting : Tree → Nat
  | .Array items => 1 + items_nesting items
  | .Object fields => 1 + fields_nesting fields
  | _ => 0

def items_nesting : List Tree → Nat
  | [] => 0
  | item :: rest => max (nesting item) (items_nesting rest)

def fields_nesting : List (Str × Tree) → Nat
  | [] => 0
  | (_, value) :: rest => max (nesting value) (fields_nesting rest)

end

mutual

/-- The decoder stops nowhere in the value. -/
def Complete : Node → Prop
  | .Fail => False
  | .F64 finite => finite.isSome
  | .Seq items closed => complete_items items ∧ closed = true
  | .Map fields closed => complete_fields fields ∧ closed = true
  | _ => True

def complete_items : List Node → Prop
  | [] => True
  | item :: rest => Complete item ∧ complete_items rest

def complete_fields : List (Str × Node) → Prop
  | [] => True
  | (_, value) :: rest => Complete value ∧ complete_fields rest

end

/-- A decoder that follows the grammar. It gives up at more than 127 containers in each other,
and reads nothing that is no document. -/
structure Faithful (decoder : Decoder) : Prop where
  reads : ∀ s tree v, grammar.Document s tree → nesting tree ≤ 127 →
    plain decoder.number tree = some v → decoder.from_str s = (node decoder.number tree, true)
  sound : ∀ bs n, decoder.from_slice bs = (n, true) → Complete n →
    ∃ s tree, bs = bytes s ∧ grammar.Document s tree ∧ node decoder.number tree = n

/-! ## The grammar itself is such a decoder -/

open Classical in
/-- What the bytes spell, if they are a document. -/
noncomputable def grammar_decoder (number : Str → Option ParserNumber) : Decoder where
  number := number
  from_slice bs :=
    if h : ∃ document : Str × Tree, bs = bytes document.1 ∧
        grammar.Document document.1 document.2 then
      (node number h.choose.2, true)
    else (.Fail, false)

theorem grammar_decoder_reads {number : Str → Option ParserNumber} {s : Str} {tree : Tree}
    (h : grammar.Document s tree) :
    (grammar_decoder number).from_str s = (node number tree, true) := by
  have hex : ∃ document : Str × Tree, bytes s = bytes document.1 ∧
      grammar.Document document.1 document.2 := ⟨(s, tree), rfl, h⟩
  obtain ⟨hbytes, hdocument⟩ := hex.choose_spec
  have hs : hex.choose.1 = s := by
    rw [← decode_utf8_bytes hex.choose.1, ← hbytes, decode_utf8_bytes]
  rw [hs] at hdocument
  have htree := document_unique h hdocument
  simp only [grammar_decoder, Decoder.from_str]
  rw [dif_pos hex, htree]

theorem grammar_decoder_faithful (number : Str → Option ParserNumber) :
    Faithful (grammar_decoder number) where
  reads s tree v h _ _ := grammar_decoder_reads h
  sound bs n hread _ := by
    unfold grammar_decoder at hread
    by_cases hex : ∃ document : Str × Tree, bs = bytes document.1 ∧
        grammar.Document document.1 document.2
    · simp only [dif_pos hex, Prod.mk.injEq, and_true] at hread
      obtain ⟨hbytes, hdocument⟩ := hex.choose_spec
      exact ⟨_, _, hbytes, hdocument, hread⟩
    · simp only [dif_neg hex, Prod.mk.injEq, reduceCtorEq, and_false] at hread

/-- The numbers that are an unsigned integer. -/
def unsigned_number (lexeme : Str) : Option ParserNumber :=
  if lexeme.all Char.isDigit then (parse_u64 lexeme).map fun n => .U64 (UInt64.ofNat n) else none

end serde_json
