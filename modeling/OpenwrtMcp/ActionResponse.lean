-- The bytes of a response to an action: one document of JSON within three limits, in which no
-- object has a key twice, or nothing but white space.
import OpenwrtMcp.JsonDecoder
import OpenwrtMcp.Opkg

open json json.grammar programs serde_json text

namespace openwrt_mcp_device_codec.response

def MAX_ACTION_BYTES : Nat := 16777216
def MAX_ACTION_DEPTH : Nat := 32
def MAX_ACTION_NODES : Nat := 65536

structure Budget where
  remaining : Nat
  failure : Option CodecError

/-- The errors of a decoder are not kept. -/
abbrev Visit := Prog Budget Unit

variable {α β : Type}

def budget.exhausted : Visit α := fun b => (.error (), { b with failure := some .OutputLimit })

/-- A value is charged before it is visited. -/
def budget.charge : Visit Unit := fun b =>
  if b.remaining = 0 then budget.exhausted b
  else (.ok (), { b with remaining := b.remaining - 1 })

/-- A container inside so many others is opened. -/
def budget.enter (depth : Nat) : Visit Unit :=
  if depth = MAX_ACTION_DEPTH then budget.exhausted else pure ()

/-- The end of a container, if the decoder finds it. -/
def closing (closed : Bool) (a : α) : Visit α := if closed then pure a else Prog.stop ()

mutual

/-- `ValueSeed { budget, depth }.deserialize(decoder)` -/
def deserialize : Node → (depth : Nat) → Visit Value
  | .Fail, _ => do
    budget.charge
    Prog.stop ()
  | .Unit, _ => do
    budget.charge
    pure .Null
  | .Bool value, _ => do
    budget.charge
    pure (.Bool value)
  | .I64 value, _ => do
    budget.charge
    pure (from_i64 value)
  | .U64 value, _ => do
    budget.charge
    pure (.Number (.PosInt value))
  | .F64 finite, _ => do
    budget.charge
    let value ← Prog.ok_or finite ()
    pure (.Number (.Float value))
  | .Str value, _ => do
    budget.charge
    pure (.String value)
  | .Seq items closed, depth => do
    budget.charge
    budget.enter depth
    let values ← visit_seq items closed (depth + 1)
    pure (.Array values)
  | .Map fields closed, depth => do
    budget.charge
    budget.enter depth
    let values ← visit_map fields closed (depth + 1) []
    pure (.Object values)

def visit_seq : List Node → (closed : Bool) → (depth : Nat) → Visit (List Value)
  | [], closed, _ => closing closed []
  | item :: rest, closed, depth => do
    let value ← deserialize item depth
    let values ← visit_seq rest closed depth
    pure (value :: values)

/-- A key that comes again is refused before its value is read. -/
def visit_map : List (Str × Node) → (closed : Bool) → (depth : Nat) → (values : Map) → Visit Map
  | [], closed, _, values => closing closed values
  | (key, value) :: rest, closed, depth, values =>
    if (values.get key).isSome then Prog.stop ()
    else do
      let value ← deserialize value depth
      visit_map rest closed depth (values.insert key value)

end

def is_blank (b : UInt8) : Bool := b = 32 || b = 9 || b = 13 || b = 10

/-- The visit of the root, with nothing spent yet. -/
def deserialize_root (root : Node) : Except Unit Value × Budget :=
  deserialize root 0 ⟨MAX_ACTION_NODES, none⟩

def parse_action_response (decoder : Decoder) (response : List UInt8) (configured_limit : Nat) :
    Except CodecError Value :=
  if configured_limit = 0 ∨ response.length > min configured_limit MAX_ACTION_BYTES then
    .error .OutputLimit
  else if response.all is_blank then .ok .Null
  else
    match deserialize_root (decoder.from_slice response).1 with
    | (.error _, budget) => .error (budget.failure.getD .InvalidResponse)
    | (.ok value, _) =>
      if (decoder.from_slice response).2 then .ok value else .error .InvalidResponse

/-! ## What a document takes -/

mutual

/-- The values that a document is made of. Keys are no values. -/
def nodes : Tree → Nat
  | .Array items => 1 + items_nodes items
  | .Object fields => 1 + fields_nodes fields
  | _ => 1

def items_nodes : List Tree → Nat
  | [] => 0
  | item :: rest => nodes item + items_nodes rest

def fields_nodes : List (Str × Tree) → Nat
  | [] => 0
  | (_, value) :: rest => nodes value + fields_nodes rest

end

mutual

/-- No object has two members of one key. -/
def Distinct : Tree → Prop
  | .Array items => distinct_items items
  | .Object fields => (fields.map Prod.fst).Nodup ∧ distinct_fields fields
  | _ => True

def distinct_items : List Tree → Prop
  | [] => True
  | item :: rest => Distinct item ∧ distinct_items rest

def distinct_fields : List (Str × Tree) → Prop
  | [] => True
  | (_, value) :: rest => Distinct value ∧ distinct_fields rest

end

/-- A visit that spends so much, and that ends with the result when things fit. -/
structure Takes (x : Visit α) (count : Nat) (fits : Prop) (result : Option α) : Prop where
  run : ∀ b b' a, x b = (.ok a, b') ↔ fits ∧ result = some a ∧ count ≤ b.remaining ∧
    b' = { b with remaining := b.remaining - count }

namespace Takes

variable {x : Visit α} {f : α → Visit β} {m n m' : Nat} {p q : Prop} {r : Option α}
  {r' : α → Option β}

theorem bind (hx : Takes x m p r) (hf : p → ∀ a, Takes (f a) n q (r' a)) :
    Takes (x >>= f) (m + n) (p ∧ q) (r.bind r') where
  run b b' c := by
    rw [Prog.bind_ok]
    constructor
    · rintro ⟨a, mid, hrun, hrest⟩
      obtain ⟨hp, rfl, hm, rfl⟩ := (hx.run b mid a).1 hrun
      obtain ⟨hq, hc, hn, rfl⟩ := ((hf hp a).run _ b' c).1 hrest
      exact ⟨⟨hp, hq⟩, hc, by simp at hn; omega, by simp [Nat.sub_sub]⟩
    · rintro ⟨⟨hp, hq⟩, hc, hcount, rfl⟩
      obtain ⟨a, rfl, ha⟩ := Option.bind_eq_some_iff.1 hc
      refine ⟨a, _, (hx.run b _ a).2 ⟨hp, rfl, by omega, rfl⟩, ?_⟩
      exact ((hf hp a).run _ _ c).2 ⟨hq, ha, by simp; omega, by simp [Nat.sub_sub]⟩

theorem cast {r₂ : Option α} (h : Takes x m p r) (hm : m = m') (hp : p ↔ q) (hr : r = r₂) :
    Takes x m' q r₂ := by
  subst hm hr
  exact ⟨fun b b' a => by rw [h.run b b' a, hp]⟩

theorem pure (a : α) : Takes (pure a) 0 True (some a) where
  run b b' c := by
    rw [Prog.pure_ok, @eq_comm _ b b']
    simp

theorem fail : Takes (Prog.stop () : Visit α) m p none where
  run b b' a := by simp

theorem refuse (h : ¬ p) : Takes (Prog.stop () : Visit α) m p r where
  run b b' a := by simp [h]

theorem ok_or (o : Option α) : Takes (Prog.ok_or o ()) 0 True o where
  run b b' a := by
    rw [Prog.ok_or_ok, @eq_comm _ b b']
    simp

theorem charge : Takes budget.charge 1 True (some ()) where
  run b b' a := by
    unfold budget.charge budget.exhausted
    by_cases hzero : b.remaining = 0
    · simp [hzero]
    · have hone : 1 ≤ b.remaining := Nat.one_le_iff_ne_zero.2 hzero
      simp [hzero, hone, eq_comm]

theorem enter {depth : Nat} (h : depth ≤ MAX_ACTION_DEPTH) :
    Takes (budget.enter depth) 0 (depth < MAX_ACTION_DEPTH) (some ()) where
  run b b' a := by
    unfold budget.enter
    by_cases hfull : depth = MAX_ACTION_DEPTH
    · simp [hfull, budget.exhausted]
    · have hlt : depth < MAX_ACTION_DEPTH := Nat.lt_of_le_of_ne h hfull
      rw [if_neg hfull, Prog.pure_ok, @eq_comm _ b b']
      simp [hlt]

end Takes

/-- A visited scalar is charged once. -/
theorem scalar_takes {x : Visit Value} {r : Option Value} {d : Nat}
    (h : Takes x 0 True r) (hd : d ≤ MAX_ACTION_DEPTH) :
    Takes (budget.charge >>= fun _ => x) 1 (d + 0 ≤ MAX_ACTION_DEPTH ∧ True) r :=
  (Takes.charge.bind fun _ _ => h).cast rfl (by simp [hd]) rfl

theorem free_insert {keys : List Str} {values : Map} {key : Str} (value : Value) :
    (∀ k ∈ keys, (values.insert key value).get k = none) ↔
      key ∉ keys ∧ ∀ k ∈ keys, values.get k = none := by
  constructor
  · intro h
    have hnot : key ∉ keys := by
      intro hmem
      have := h key hmem
      rw [Map.get_insert_self] at this
      cases this
    refine ⟨hnot, fun k hk => ?_⟩
    have hne : k ≠ key := fun heq => hnot (heq ▸ hk)
    rw [← h k hk, Map.get_insert_ne values value hne]
  · rintro ⟨hnot, h⟩ k hk
    have hne : k ≠ key := fun heq => hnot (heq ▸ hk)
    rw [Map.get_insert_ne values value hne]
    exact h k hk

variable {number : Str → Option ParserNumber}

theorem number_takes (lexeme : Str) {d : Nat} (hd : d ≤ MAX_ACTION_DEPTH) :
    Takes (deserialize (number_node (number lexeme)) d) 1 (d + 0 ≤ MAX_ACTION_DEPTH ∧ True)
      ((number lexeme).map number_value) := by
  cases number lexeme with
  | none => exact scalar_takes Takes.fail hd
  | some n =>
    cases n with
    | F64 value =>
      refine @scalar_takes _ (some _) d ?_ hd
      exact ((Takes.ok_or (some value)).bind fun _ _ => Takes.pure _).cast rfl and_self_iff rfl
    | U64 value => exact scalar_takes (Takes.pure _) hd
    | I64 value => exact scalar_takes (Takes.pure _) hd

mutual

theorem deserialize_takes : (t : Tree) → (d : Nat) → d ≤ MAX_ACTION_DEPTH →
    Takes (deserialize (node number t) d) (nodes t) (d + nesting t ≤ MAX_ACTION_DEPTH ∧ Distinct t)
      (plain number t)
  | .Null, d, hd => scalar_takes (Takes.pure _) hd
  | .Bool value, d, hd => scalar_takes (Takes.pure _) hd
  | .Number lexeme, d, hd => number_takes lexeme hd
  | .String value, d, hd => scalar_takes (Takes.pure _) hd
  | .Array items, d, hd => by
    refine (Takes.charge.bind fun _ _ => (Takes.enter hd).bind fun hlt _ =>
      (items_takes items (d + 1) hlt).bind fun _ values => Takes.pure _).cast ?_ ?_ ?_
    · simp [nodes]
    · rw [nesting, Distinct, true_and, and_true]
      constructor
      · rintro ⟨hlt, hdepth, hitems⟩
        exact ⟨by omega, hitems⟩
      · rintro ⟨hdepth, hitems⟩
        exact ⟨by omega, by omega, hitems⟩
    · cases hplain : plain_items number items with
      | none => simp [plain, hplain]
      | some values => simp [plain, hplain]
  | .Object fields, d, hd => by
    refine (Takes.charge.bind fun _ _ => (Takes.enter hd).bind fun hlt _ =>
      (fields_takes fields (d + 1) hlt []).bind fun _ values => Takes.pure _).cast ?_ ?_ ?_
    · simp [nodes]
    · rw [nesting, Distinct, true_and, and_true]
      constructor
      · rintro ⟨hlt, hdepth, hkeys, -, hfields⟩
        exact ⟨by omega, hkeys, hfields⟩
      · rintro ⟨hdepth, hkeys, hfields⟩
        exact ⟨by omega, by omega, hkeys, fun _ _ => rfl, hfields⟩
    · cases hplain : plain_fields number fields [] with
      | none => simp [plain, hplain]
      | some values => simp [plain, hplain]

theorem items_takes : (items : List Tree) → (d : Nat) → d ≤ MAX_ACTION_DEPTH →
    Takes (visit_seq (item_nodes number items) true d) (items_nodes items)
      (d + items_nesting items ≤ MAX_ACTION_DEPTH ∧ distinct_items items)
      (plain_items number items)
  | [], d, hd => by
    exact (Takes.pure []).cast rfl (by simp [items_nesting, distinct_items, hd]) rfl
  | item :: rest, d, hd => by
    refine ((deserialize_takes item d hd).bind fun _ value =>
      (items_takes rest d hd).bind fun _ values => Takes.pure _).cast ?_ ?_ ?_
    · simp [items_nodes]
    · have hmax : d + items_nesting (item :: rest) ≤ MAX_ACTION_DEPTH ↔
          d + nesting item ≤ MAX_ACTION_DEPTH ∧ d + items_nesting rest ≤ MAX_ACTION_DEPTH := by
        rw [items_nesting]
        omega
      rw [hmax, distinct_items]
      tauto
    · rw [plain_items]
      cases hplain : plain_items number rest with
      | none => simp
      | some values => simp

theorem fields_takes : (fields : List (Str × Tree)) → (d : Nat) → d ≤ MAX_ACTION_DEPTH →
    (values : Map) → Takes (visit_map (field_nodes number fields) true d values)
      (fields_nodes fields)
      (d + fields_nesting fields ≤ MAX_ACTION_DEPTH ∧ (fields.map Prod.fst).Nodup ∧
        (∀ key ∈ fields.map Prod.fst, values.get key = none) ∧ distinct_fields fields)
      (plain_fields number fields values)
  | [], d, hd, values => by
    exact (Takes.pure values).cast rfl (by simp [fields_nesting, distinct_fields, hd]) rfl
  | (key, value) :: rest, d, hd, values => by
    have hcase := (deserialize_takes value d hd).bind fun _ v =>
      (fields_takes rest d hd (values.insert key v)).cast rfl
        (and_congr_right fun _ => and_congr_right fun _ => and_congr_left fun _ => free_insert v)
          rfl
    rw [field_nodes, visit_map, plain_fields, fields_nodes]
    by_cases hused : (values.get key).isSome
    · rw [if_pos hused]
      refine Takes.refuse ?_
      rintro ⟨-, -, hfree, -⟩
      rw [hfree key List.mem_cons_self] at hused
      cases hused
    · rw [if_neg hused]
      have hfree : values.get key = none := by simpa using hused
      have hmax : d + fields_nesting ((key, value) :: rest) ≤ MAX_ACTION_DEPTH ↔
          d + nesting value ≤ MAX_ACTION_DEPTH ∧ d + fields_nesting rest ≤ MAX_ACTION_DEPTH := by
        rw [fields_nesting]
        omega
      refine hcase.cast rfl ?_ rfl
      rw [hmax, distinct_fields, List.map_cons, List.nodup_cons, List.forall_mem_cons]
      tauto

end

/-! ## A visit that ends well has seen all of the value -/

theorem closing_ok {closed : Bool} {a a' : α} {b b' : Budget}
    (h : closing closed a b = (.ok a', b')) : closed = true := by
  cases closed with
  | true => rfl
  | false =>
    rw [closing, if_neg (by decide), Prog.stop_ok] at h
    cases h

mutual

theorem deserialize_complete : (n : Node) → {d : Nat} → {b b' : Budget} → {v : Value} →
    deserialize n d b = (.ok v, b') → Complete n
  | .Fail, d, b, b', v, h => by
    rw [deserialize, Prog.bind_ok] at h
    obtain ⟨_, _, -, hstop⟩ := h
    simp at hstop
  | .Unit, _, _, _, _, _ => by simp [Complete]
  | .Bool _, _, _, _, _, _ => by simp [Complete]
  | .I64 _, _, _, _, _, _ => by simp [Complete]
  | .U64 _, _, _, _, _, _ => by simp [Complete]
  | .Str _, _, _, _, _, _ => by simp [Complete]
  | .F64 finite, d, b, b', v, h => by
    rw [deserialize, Prog.bind_ok] at h
    obtain ⟨_, _, -, hvalue⟩ := h
    obtain ⟨value, rfl, -⟩ := Prog.ok_or_bind_ok.1 hvalue
    simp [Complete]
  | .Seq items closed, d, b, b', v, h => by
    rw [deserialize, Prog.bind_ok] at h
    obtain ⟨_, _, -, henter⟩ := h
    obtain ⟨_, _, -, hitems⟩ := Prog.bind_ok.1 henter
    obtain ⟨_, _, hvisit, -⟩ := Prog.bind_ok.1 hitems
    rw [Complete]
    exact visit_seq_complete items hvisit
  | .Map fields closed, d, b, b', v, h => by
    rw [deserialize, Prog.bind_ok] at h
    obtain ⟨_, _, -, henter⟩ := h
    obtain ⟨_, _, -, hfields⟩ := Prog.bind_ok.1 henter
    obtain ⟨_, _, hvisit, -⟩ := Prog.bind_ok.1 hfields
    rw [Complete]
    exact visit_map_complete fields hvisit

theorem visit_seq_complete : (items : List Node) → {closed : Bool} → {d : Nat} →
    {b b' : Budget} → {vs : List Value} → visit_seq items closed d b = (.ok vs, b') →
    complete_items items ∧ closed = true
  | [], closed, d, b, b', vs, h => ⟨by simp [complete_items], closing_ok h⟩
  | item :: rest, closed, d, b, b', vs, h => by
    rw [visit_seq, Prog.bind_ok] at h
    obtain ⟨_, _, hitem, hmore⟩ := h
    obtain ⟨_, _, hrest, -⟩ := Prog.bind_ok.1 hmore
    obtain ⟨hcomplete, hclosed⟩ := visit_seq_complete rest hrest
    rw [complete_items]
    exact ⟨⟨deserialize_complete item hitem, hcomplete⟩, hclosed⟩

theorem visit_map_complete : (fields : List (Str × Node)) → {closed : Bool} → {d : Nat} →
    {values values' : Map} → {b b' : Budget} →
    visit_map fields closed d values b = (.ok values', b') →
    complete_fields fields ∧ closed = true
  | [], closed, d, values, values', b, b', h => ⟨by simp [complete_fields], closing_ok h⟩
  | (key, value) :: rest, closed, d, values, values', b, b', h => by
    rw [visit_map] at h
    by_cases hused : (values.get key).isSome
    · rw [if_pos hused, Prog.stop_ok] at h
      cases h
    · rw [if_neg hused, Prog.bind_ok] at h
      obtain ⟨_, _, hvalue, hmore⟩ := h
      obtain ⟨hcomplete, hclosed⟩ := visit_map_complete rest hmore
      rw [complete_fields]
      exact ⟨⟨deserialize_complete value hvalue, hcomplete⟩, hclosed⟩

end

/-! ## The response -/

/-- A document is more than white space. -/
theorem document_not_blank {s : Str} {tree : Tree} (h : grammar.Document s tree) :
    (bytes s).all is_blank = false := by
  obtain ⟨w, w', start, rfl, -, -, hreads⟩ := h
  obtain ⟨c, rest, rfl, -⟩ := hreads.head
  have hc : blank c = false := hreads.dense c (by simp)
  have hbyte : ∃ b ∈ bytes [c], is_blank b = false := by
    by_cases hlow : c.toNat < 128
    · refine ⟨UInt8.ofNat c.toNat, by rw [bytes_low hlow]; simp, ?_⟩
      have hall : ∀ n : Fin 128, blank (Char.ofNat n.1) = false →
          is_blank (UInt8.ofNat n.1) = false := by decide
      have := hall ⟨c.toNat, hlow⟩
      rw [Char.ofNat_toNat] at this
      exact this hc
    · have hhigh := bytes_high (Nat.le_of_not_lt hlow)
      obtain ⟨b, hb⟩ : ∃ b, b ∈ bytes [c] := by
        refine List.exists_mem_of_ne_nil _ ?_
        simp [bytes, String.utf8EncodeChar_ne_nil]
      have hne : ∀ n : UInt8, n.toNat < 128 → b ≠ n := by
        rintro n hn rfl
        exact absurd (hhigh b hb) (Nat.not_le_of_lt hn)
      refine ⟨b, hb, ?_⟩
      simp [is_blank, hne 32 (by decide), hne 9 (by decide), hne 13 (by decide),
        hne 10 (by decide)]
  obtain ⟨b, hb, hbyte⟩ := hbyte
  rw [bytes_append, bytes_cons]
  simp only [List.all_append, Bool.and_eq_false_iff]
  refine .inr (.inl ?_)
  rw [List.all_eq_false]
  exact ⟨b, hb, by simp [hbyte]⟩

variable {decoder : Decoder}

theorem visit_ok {decoder : Decoder} {tree : Tree} {v : Value} :
    (deserialize_root (node decoder.number tree)).1 = .ok v ↔
      nodes tree ≤ MAX_ACTION_NODES ∧ nesting tree ≤ MAX_ACTION_DEPTH ∧ Distinct tree ∧
        plain decoder.number tree = some v := by
  have hrun := (@deserialize_takes decoder.number tree 0 (Nat.zero_le _)).run
    ⟨MAX_ACTION_NODES, none⟩
  rw [Nat.zero_add] at hrun
  constructor
  · intro h
    obtain ⟨⟨hdepth, hdistinct⟩, hplain, hnodes, -⟩ := (hrun _ v).1 (Prod.ext h rfl)
    exact ⟨hnodes, hdepth, hdistinct, hplain⟩
  · rintro ⟨hnodes, hdepth, hdistinct, hplain⟩
    exact congrArg Prod.fst ((hrun _ v).2 ⟨⟨hdepth, hdistinct⟩, hplain, hnodes, rfl⟩)

/-- Bytes that are not all blank are read exactly when they are one document within the
limits. -/
theorem read_ok (hdecoder : Faithful decoder) {response : List UInt8} {v : Value} :
    (deserialize_root (decoder.from_slice response).1).1 = .ok v ∧
        (decoder.from_slice response).2 = true ↔
      ∃ s tree, response = bytes s ∧ grammar.Document s tree ∧ nodes tree ≤ MAX_ACTION_NODES ∧
        nesting tree ≤ MAX_ACTION_DEPTH ∧ Distinct tree ∧ plain decoder.number tree = some v := by
  constructor
  · rintro ⟨hvisit, hend⟩
    cases hread : decoder.from_slice response with
    | mk root complete =>
      rw [hread] at hvisit hend
      obtain rfl : complete = true := hend
      have hcomplete := deserialize_complete root (Prod.ext hvisit rfl)
      obtain ⟨s, tree, hs, hdocument, rfl⟩ := hdecoder.sound response root hread hcomplete
      exact ⟨s, tree, hs, hdocument, visit_ok.1 hvisit⟩
  · rintro ⟨s, tree, rfl, hdocument, hnodes, hdepth, hdistinct, hplain⟩
    have hnesting : nesting tree ≤ 127 := hdepth.trans (by decide)
    have hread := hdecoder.reads s tree v hdocument hnesting hplain
    unfold Decoder.from_str at hread
    rw [hread]
    exact ⟨visit_ok.2 ⟨hnodes, hdepth, hdistinct, hplain⟩, rfl⟩

theorem parse_action_response_eq {response : List UInt8} {configured_limit : Nat} {v : Value} :
    parse_action_response decoder response configured_limit = .ok v ↔
      configured_limit ≠ 0 ∧ response.length ≤ min configured_limit MAX_ACTION_BYTES ∧
        (response.all is_blank = true ∧ v = .Null ∨
          response.all is_blank = false ∧
            (deserialize_root (decoder.from_slice response).1).1 = .ok v ∧
              (decoder.from_slice response).2 = true) := by
  unfold parse_action_response
  by_cases hlimit : configured_limit = 0 ∨ response.length > min configured_limit MAX_ACTION_BYTES
  · rw [if_pos hlimit]
    constructor
    · intro h
      cases h
    · rintro ⟨hsome, hlen, -⟩
      omega
  rw [if_neg hlimit]
  obtain ⟨hsome, hlen⟩ := not_or.1 hlimit
  by_cases hblank : response.all is_blank = true
  · rw [if_pos hblank, hblank]
    have hle := Nat.not_lt.1 hlen
    simp only [hle, Except.ok.injEq, true_and, reduceCtorEq, false_and, or_false]
    exact ⟨fun h => ⟨hsome, h.symm⟩, fun h => h.2.symm⟩
  · rw [if_neg hblank]
    have hdense := Bool.eq_false_iff.2 hblank
    have hle := Nat.not_lt.1 hlen
    simp only [hdense, hle, reduceCtorEq, false_and, false_or, true_and]
    cases deserialize_root (decoder.from_slice response).1 with
    | mk result budget =>
      cases result with
      | error e => simp
      | ok value => cases (decoder.from_slice response).2 <;> simp [hsome]

/-- A response is accepted exactly when it is nothing but white space, or one document with
finite numbers, few values, few containers in each other and no key twice. What is returned is
then the value of the document. -/
theorem the_response_is_one_document_within_the_limits (hdecoder : Faithful decoder)
    (response : List UInt8) (configured_limit : Nat) (v : Value) :
    parse_action_response decoder response configured_limit = .ok v ↔
      configured_limit ≠ 0 ∧ response.length ≤ min configured_limit 16777216 ∧
        (response.all is_blank = true ∧ v = .Null ∨
          ∃ s tree, response = bytes s ∧ grammar.Document s tree ∧ nodes tree ≤ 65536 ∧
            nesting tree ≤ 32 ∧ Distinct tree ∧ plain decoder.number tree = some v) := by
  rw [parse_action_response_eq]
  refine and_congr_right fun _ => and_congr_right fun _ => or_congr_right ?_
  rw [read_ok hdecoder]
  refine ⟨And.right, fun h => ⟨?_, h⟩⟩
  obtain ⟨s, tree, rfl, hdocument, -⟩ := h
  exact document_not_blank hdocument

def one_member : Str := ['\x7b', '"', 'a', '"', ':', '7', '\x7d']

theorem one_member_document :
    grammar.Document one_member (.Object [(['a'], .Number ['7'])]) := by
  have hdigits : Digits ['7'] := by simp [Digits]
  have hnumber : IsNumber ['7'] := ⟨[], ['7'], [], [], rfl, .inl rfl, .inr ⟨hdigits, by decide⟩,
    .inl rfl, .inl rfl⟩
  have hvalue : Reads (.Number ['7']) ['7', '\x7d'] ['\x7d'] := by
    rw [Reads]
    exact ⟨hnumber, rfl, by simp [number_char]⟩
  have hkey : Spells ['a'] ['a'] := .plain (by decide) (by decide) (by decide) .nil
  have hfield : ReadsField (['a'], .Number ['7']) ['"', 'a', '"', ':', '7', '\x7d'] ['\x7d'] := by
    rw [ReadsField]
    exact ⟨['a'], [], [], _, hkey, rfl, blank_nil, blank_nil, hvalue⟩
  have hobject : Reads (.Object [(['a'], .Number ['7'])]) one_member [] := by
    rw [Reads]
    refine ⟨[], _, rfl, blank_nil, ?_⟩
    rw [ReadsFields]
    refine ⟨[], _, hfield, blank_nil, ?_⟩
    rw [ReadsMoreFields]
  exact ⟨[], [], one_member, rfl, blank_nil, blank_nil, hobject⟩

theorem an_object_of_one_member_is_returned :
    Faithful (grammar_decoder unsigned_number) ∧
      parse_action_response (grammar_decoder unsigned_number) (bytes one_member) 16 =
        .ok (.Object [(['a'], .Number (.PosInt 7))]) := by
  have hfaithful := grammar_decoder_faithful unsigned_number
  refine ⟨hfaithful, ?_⟩
  refine (the_response_is_one_document_within_the_limits hfaithful _ _ _).2
    ⟨by decide, by decide,
      .inr ⟨one_member, _, rfl, one_member_document, by decide, by decide, ?_, ?_⟩⟩
  · simp [Distinct, distinct_fields]
  · rfl

end openwrt_mcp_device_codec.response
