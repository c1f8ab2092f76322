-- A client that follows the cursors from the first page on gets every record once, in order,
-- and no page of it is refused.
import OpenwrtMcp.PackageRecords

open decimals json slices text
open programs (except_bind_ok)

namespace openwrt_mcp_core.packages

open normalized (check_normalized_result check_normalized_result_ok)

/-! ## The cursor of an offset -/

namespace PackageCursor

/-- The byte of a hexadecimal digit. -/
def hex_byte (n : Nat) : UInt8 := UInt8.ofNat (if n < 10 then 48 + n else 87 + n)

theorem bytes_hex_digit (n : Fin 16) : bytes [hex_digit n.1] = [hex_byte n.1] ∧
    is_hex (hex_byte n.1) = true ∧ hex_value (hex_byte n.1) = n.1 ∧ hex_digit n.1 ≠ '.' := by
  have hall : ∀ n : Fin 16, bytes [hex_digit n.1] = [hex_byte n.1] ∧
      is_hex (hex_byte n.1) = true ∧ hex_value (hex_byte n.1) = n.1 ∧ hex_digit n.1 ≠ '.' := by
    decide
  exact hall n

theorem high_digit (b : UInt8) : b.toNat / 16 < 16 := by
  have := b.toNat_lt
  omega

theorem low_digit (b : UInt8) : b.toNat % 16 < 16 := Nat.mod_lt _ (by decide)

/-- The two digits of a byte. -/
def digits (b : UInt8) : List UInt8 := [hex_byte (b.toNat / 16), hex_byte (b.toNat % 16)]

theorem bytes_hex (nonce : Nonce) : bytes (hex nonce) = nonce.toList.flatMap digits := by
  have hlist : ∀ l : List UInt8, bytes (l.flatMap fun byte =>
      [hex_digit (byte.toNat / 16), hex_digit (byte.toNat % 16)]) = l.flatMap digits := by
    intro l
    induction l with
    | nil => rfl
    | cons b l ih =>
      have hhigh := (bytes_hex_digit ⟨b.toNat / 16, high_digit b⟩).1
      have hlow := (bytes_hex_digit ⟨b.toNat % 16, low_digit b⟩).1
      rw [List.flatMap_cons, bytes_append, ih, bytes_cons, hhigh, hlow, List.flatMap_cons]
      rfl
  exact hlist nonce.toList

theorem getD_digits (l : List UInt8) (i : Nat) (hi : i < l.length) :
    (l.flatMap digits).getD (2 * i) 0 = hex_byte ((l.getD i 0).toNat / 16) ∧
      (l.flatMap digits).getD (2 * i + 1) 0 = hex_byte ((l.getD i 0).toNat % 16) := by
  induction l generalizing i with
  | nil => simp at hi
  | cons b l ih =>
    cases i with
    | zero => exact ⟨rfl, rfl⟩
    | succ i =>
      have hrest := ih i (by simpa using hi)
      have htwo : 2 * (i + 1) = 2 * i + 1 + 1 := by omega
      rw [List.flatMap_cons, htwo]
      exact hrest

theorem length_digits (l : List UInt8) : (l.flatMap digits).length = 2 * l.length := by
  induction l with
  | nil => rfl
  | cons b l ih =>
    rw [List.flatMap_cons, List.length_append, ih, List.length_cons]
    simp [digits]
    omega

theorem nonce_of_hex (nonce : Nonce) : nonce_of (bytes (hex nonce)) = nonce := by
  apply Vector.ext
  intro i hi
  have hlength : i < nonce.toList.length := by simpa using hi
  obtain ⟨hhigh, hlow⟩ := getD_digits nonce.toList i hlength
  have hget : nonce.toList.getD i 0 = nonce[i] := by
    rw [List.getD_eq_getElem _ _ hlength]
    simp
  have hvalue := (bytes_hex_digit ⟨nonce[i].toNat / 16, high_digit _⟩).2.2.1
  have hvalue' := (bytes_hex_digit ⟨nonce[i].toNat % 16, low_digit _⟩).2.2.1
  simp only [nonce_of, Vector.getElem_ofFn, bytes_hex, hhigh, hlow, hget, hvalue, hvalue']
  rw [Nat.div_add_mod']
  exact UInt8.ofNat_toNat

theorem hex_is_hex (nonce : Nonce) : (bytes (hex nonce)).all is_hex = true := by
  rw [bytes_hex, List.all_eq_true]
  intro b hb
  obtain ⟨c, -, hin⟩ := List.mem_flatMap.1 hb
  simp only [digits, List.mem_cons, List.not_mem_nil, or_false] at hin
  rcases hin with rfl | rfl
  · exact (bytes_hex_digit ⟨c.toNat / 16, high_digit c⟩).2.1
  · exact (bytes_hex_digit ⟨c.toNat % 16, low_digit c⟩).2.1

theorem len_hex (nonce : Nonce) : len (hex nonce) = 32 := by
  unfold len
  rw [bytes_hex, length_digits]
  simp

theorem len_encode_le (nonce : Nonce) {offset : Nat} (hlt : offset < MAX_PACKAGE_RECORDS) :
    len (encode nonce offset) ≤ 37 := by
  unfold MAX_PACKAGE_RECORDS at hlt
  have hdigits : len (decimal offset) ≤ 4 := by
    rw [len_digits fun c => decimal_digits]
    exact (Nat.length_toDigits_le_iff (by decide) (by decide)).2 (by omega)
  have hdot : len ['.'] = 1 := by decide
  unfold encode
  rw [← List.singleton_append, len_append, len_append, len_hex, hdot]
  omega

theorem split_once_append {c : Char} {s t : Str} (h : c ∉ s) :
    split_once c (s ++ c :: t) = some (s, t) := by
  induction s with
  | nil => simp [split_once]
  | cons x s ih =>
    simp only [List.mem_cons, not_or] at h
    rw [List.cons_append, split_once, if_neg (Ne.symm h.1), ih h.2]
    rfl

theorem split_once_ok {c : Char} {s left right : Str} (h : split_once c s = some (left, right)) :
    s = left ++ c :: right := by
  induction s generalizing left with
  | nil => cases h
  | cons x s ih =>
    unfold split_once at h
    by_cases hx : x = c
    · rw [if_pos hx] at h
      cases h
      rw [hx]
      rfl
    · rw [if_neg hx, Option.map_eq_some_iff] at h
      obtain ⟨p, hp, heq⟩ := h
      cases heq
      rw [ih hp]
      rfl

theorem dot_not_in_hex (nonce : Nonce) : '.' ∉ hex nonce := by
  intro hin
  obtain ⟨b, -, hin⟩ := List.mem_flatMap.1 hin
  simp only [List.mem_cons, List.not_mem_nil, or_false] at hin
  rcases hin with heq | heq
  · exact (bytes_hex_digit ⟨b.toNat / 16, high_digit b⟩).2.2.2 heq.symm
  · exact (bytes_hex_digit ⟨b.toNat % 16, low_digit b⟩).2.2.2 heq.symm

/-- A cursor leads back to the page that it was made for. -/
theorem parse_encode {nonce : Nonce} {offset : Nat} (hnonce : nonce ≠ zero) (hpos : offset ≠ 0)
    (hlt : offset < MAX_PACKAGE_RECORDS) (hmod : offset % PACKAGE_PAGE_RECORDS = 0) :
    parse (encode nonce offset) = .ok ⟨nonce, offset⟩ := by
  have hlen : ¬ len (encode nonce offset) > 37 := Nat.not_lt.2 (len_encode_le nonce hlt)
  unfold MAX_PACKAGE_RECORDS at hlt
  have hsplit : split_once '.' (encode nonce offset) = some (hex nonce, decimal offset) :=
    split_once_append (dot_not_in_hex nonce)
  have hparse : parse_unsigned (decimal offset) = some (offset : Int) := by
    rw [parse_unsigned, if_neg (head_decimal offset), parse_signed_decimal]
  have htext : signed_decimal (offset : Int) = decimal offset := by
    rw [signed_decimal_nonneg (by omega), Int.toNat_natCast]
  have hall := hex_is_hex nonce
  have hwide : ¬ (offset : Int) ≥ 2 ^ 64 := by omega
  have hint : ¬ (offset : Int) = 0 := by omega
  have hint' : ¬ (offset : Int) ≥ (MAX_PACKAGE_RECORDS : Nat) := by
    unfold MAX_PACKAGE_RECORDS
    omega
  unfold parse
  rw [if_neg hlen, hsplit]
  simp only [len_hex, hall, ne_eq, not_true, decide_false, Bool.not_true, Bool.or_false,
    Bool.false_eq_true, if_false, nonce_of_hex, parse_offset, hparse, hwide, hnonce, hint, hint',
    Int.toNat_natCast, hmod, htext]

theorem quiet_encode (nonce : Nonce) (offset : Nat) : Quiet (encode nonce offset) := by
  have hhex : ∀ n : Fin 16, Quiet [hex_digit n.1] := by
    have hall : ∀ n : Fin 16, ([hex_digit n.1].all fun c => 32 ≤ c.toNat) = true := by
      decide
    exact fun n => quiet_of_all (hall n)
  have hquiet : Quiet (hex nonce) := by
    intro c hc
    obtain ⟨b, -, hin⟩ := List.mem_flatMap.1 hc
    simp only [List.mem_cons, List.not_mem_nil, or_false] at hin
    rcases hin with rfl | rfl
    · exact hhex ⟨b.toNat / 16, high_digit b⟩ _ (by simp)
    · exact hhex ⟨b.toNat % 16, low_digit b⟩ _ (by simp)
  exact hquiet.append (quiet_cons.2 ⟨by decide, quiet_decimal offset⟩)

end PackageCursor

/-! ## One page -/

/-- The rows, as they are given out. -/
def Records.values : Records → List Value
  | .Apk rows => rows.map PackageRecord.to_value
  | .Opkg rows => rows.map OpkgStatusRecord.to_value

theorem Records.length_values (records : Records) : records.values.length = records.count := by
  cases records <;> simp [values, count]

theorem Records.slice_eq (records : Records) (offset stop : Nat) :
    records.slice offset stop = (records.values.drop offset).take (stop - offset) := by
  cases records <;> simp [slice, values]

/-- What an observation holds. -/
structure Kept (records : Records) : Prop where
  count : records.count ≤ MAX_PACKAGE_RECORDS
  small : ∀ v ∈ records.values, Small v

theorem items_depth_le {items : List Value} (h : ∀ v ∈ items, Small v) :
    normalized.items_depth items ≤ 2 := by
  induction items with
  | nil => exact Nat.zero_le _
  | cons v items ih =>
    rw [List.forall_mem_cons] at h
    have hrest := ih h.2
    rw [normalized.items_depth, h.1.depth]
    omega

theorem items_nodes_eq {items : List Value} (h : ∀ v ∈ items, Small v) :
    normalized.items_nodes items = 5 * items.length := by
  induction items with
  | nil => rfl
  | cons v items ih =>
    rw [List.forall_mem_cons] at h
    rw [normalized.items_nodes, h.1.nodes, ih h.2, List.length_cons]
    omega

theorem items_size_le {items : List Value} (h : ∀ v ∈ items, Small v) :
    (items.map json.size).sum ≤ 1500 * items.length := by
  induction items with
  | nil => simp
  | cons v items ih =>
    rw [List.forall_mem_cons] at h
    have hfirst := h.1.size
    have hrest := ih h.2
    rw [List.map_cons, List.sum_cons, List.length_cons]
    omega

theorem size_of_usize_le (n : Nat) : json.size (of_usize n) ≤ 20 := by
  have hlt := (UInt64.ofNat n).toNat_lt
  show len (decimal (UInt64.ofNat n).toNat) ≤ 20
  rw [len_digits fun c => decimal_digits]
  exact (Nat.length_toDigits_le_iff (by decide) (by decide)).2 (by omega)

namespace PackageObservation

/-- A page of at most sixteen rows passes the check of the result. -/
theorem page_value_checked {records : Records} (h : Kept records) (nonce : Nonce)
    {offset stop : Nat} (hstop : stop ≤ offset + PACKAGE_PAGE_RECORDS) :
    check_normalized_result (page_value records nonce offset stop) = .ok () := by
  have hsmall : ∀ v ∈ records.slice offset stop, Small v := by
    intro v hv
    rw [Records.slice_eq] at hv
    exact h.small v (List.mem_of_mem_drop (List.mem_of_mem_take hv))
  have hlength : (records.slice offset stop).length ≤ 16 := by
    unfold PACKAGE_PAGE_RECORDS at hstop
    rw [Records.slice_eq, List.length_take]
    omega
  have hdepth := items_depth_le hsmall
  have hnodes := items_nodes_eq hsmall
  have hitems := items_size_le hsmall
  have hcount := size_of_usize_le records.count
  have hoffset := size_of_usize_le offset
  have hstring : ∀ s, json.size (.String s) = text_cost s := len_encode_text
  have hfalse : json.size (.Bool false) = 5 := by decide
  have hscope : text_cost records.scope.toList ≤ 29 := by
    cases records
    · show text_cost "apk_query_installed_visible".toList ≤ 29
      decide
    · show text_cost "opkg_root_status_file".toList ≤ 29
      decide
  have hsource : text_cost records.source.toList ≤ 29 := by
    cases records
    · show text_cost "apk_3_0_5".toList ≤ 29
      decide
    · show text_cost "opkg_38eccbb1".toList ≤ 29
      decide
  have hkeys : text_cost "captured_count".toList + text_cost "consistency".toList +
      text_cost "non_atomic_observation".toList + text_cost "items".toList +
      text_cost "next_cursor".toList + text_cost "offset".toList + text_cost "scope".toList +
      text_cost "source".toList + text_cost "whole_device_complete".toList ≤ 200 := by
    decide
  have hcursor : stop < records.count → text_cost (PackageCursor.encode nonce stop) ≤ 76 := by
    intro hmore
    have hcost := (PackageCursor.quiet_encode nonce stop).text_cost_le
    have hlen := PackageCursor.len_encode_le nonce (hmore.trans_le h.count)
    omega
  rw [check_normalized_result_ok]
  unfold page_value normalized.MAX_VALUE_DEPTH normalized.MAX_VALUE_NODES
    projection.MAX_NORMALIZED_BYTES
  by_cases hmore : stop < records.count
  · have hcursor := hcursor hmore
    rw [if_pos hmore]
    refine ⟨?_, ?_, ?_⟩
    · simp only [members, List.cons_append, List.nil_append, List.map_cons, List.map_nil,
        normalized.depth, normalized.fields_depth, of_usize]
      omega
    · simp only [members, List.cons_append, List.nil_append, List.map_cons, List.map_nil,
        size_object, size_array, field_size, List.sum_cons, List.sum_nil, List.length_cons,
        List.length_nil, hstring, hfalse]
      omega
    · simp only [members, List.cons_append, List.nil_append, List.map_cons, List.map_nil,
        normalized.nodes, normalized.fields_nodes, of_usize]
      omega
  · rw [if_neg hmore]
    refine ⟨?_, ?_, ?_⟩
    · simp only [members, List.cons_append, List.nil_append, List.map_cons, List.map_nil,
        normalized.depth, normalized.fields_depth, of_usize]
      omega
    · simp only [members, List.cons_append, List.nil_append, List.map_cons, List.map_nil,
        size_object, size_array, field_size, List.sum_cons, List.sum_nil, List.length_cons,
        List.length_nil, hstring, hfalse]
      omega
    · simp only [members, List.cons_append, List.nil_append, List.map_cons, List.map_nil,
        normalized.nodes, normalized.fields_nodes, of_usize]
      omega

theorem page_ok {records : Records} (h : Kept records) {nonce : Nonce} (hnonce : nonce ≠ zero)
    {offset : Nat} (hmod : offset % PACKAGE_PAGE_RECORDS = 0)
    (hoffset : offset = 0 ∨ offset < records.count) :
    page ⟨records⟩ nonce offset = .ok (page_value records nonce offset
      (min (offset + PACKAGE_PAGE_RECORDS) records.count)) := by
  have hcount := h.count
  have hwide : min (min (offset + PACKAGE_PAGE_RECORDS) (2 ^ 64 - 1)) records.count =
      min (offset + PACKAGE_PAGE_RECORDS) records.count := by
    unfold MAX_PACKAGE_RECORDS at hcount
    unfold PACKAGE_PAGE_RECORDS
    omega
  have hrange : ¬ (offset ≠ 0 ∧ offset ≥ records.count) := by omega
  have hchecked : check_normalized_result (page_value records nonce offset
      (min (offset + PACKAGE_PAGE_RECORDS) records.count)) = .ok () :=
    page_value_checked h nonce (Nat.min_le_left _ _)
  have hguard : (decide (nonce = zero) || decide (offset % PACKAGE_PAGE_RECORDS ≠ 0) ||
      (decide (offset ≠ 0) && decide (offset ≥ records.count))) = false := by
    simp only [hnonce, hmod, decide_false, ne_eq, not_true, Bool.false_or, Bool.and_eq_false_iff,
      decide_eq_false_iff_not]
    omega
  unfold page
  simp only [hguard, hwide, hchecked]
  rfl

/-! ## All pages -/

def next_cursor (page : Value) : Option Str :=
  ((as_object page).bind fun fields => Map.get fields "next_cursor".toList).bind as_str

def items (page : Value) : List Value :=
  (((as_object page).bind fun fields => Map.get fields "items".toList).bind as_array).getD []

/-- A client that asks for a page and then for the one that its cursor leads to. It gives up on
an error, and on a cursor of another observation. -/
def follow (observation : PackageObservation) (nonce : Nonce) : Nat → Nat → Option (List Value)
  | 0, _ => none
  | fuel + 1, offset =>
    match observation.page nonce offset with
    | .error _ => none
    | .ok result =>
      match next_cursor result with
      | none => some [result]
      | some text =>
        match PackageCursor.parse text with
        | .error _ => none
        | .ok cursor =>
          if cursor.nonce = nonce then
            (observation.follow nonce fuel cursor.offset).map (result :: ·)
          else none

theorem get_cons_self (key : Str) (v : Value) (rest : Map) :
    Map.get ((key, v) :: rest) key = some v := by
  simp [Map.get]

theorem get_cons_ne {key k : Str} (h : key ≠ k) (v : Value) (rest : Map) :
    Map.get ((k, v) :: rest) key = Map.get rest key := by
  rw [Map.get, List.lookup_cons, beq_false_of_ne h]
  rfl

theorem items_page_value (records : Records) (nonce : Nonce) (offset stop : Nat) :
    items (page_value records nonce offset stop) = records.slice offset stop := by
  unfold items page_value members
  simp only [List.cons_append, List.map_cons, as_object, Option.bind_some]
  rw [get_cons_ne (by decide), get_cons_ne (by decide), get_cons_self]
  rfl

theorem next_cursor_page_value (records : Records) (nonce : Nonce) (offset stop : Nat) :
    next_cursor (page_value records nonce offset stop) =
      if stop < records.count then some (PackageCursor.encode nonce stop) else none := by
  unfold next_cursor page_value members
  by_cases hmore : stop < records.count
  · rw [if_pos hmore, if_pos hmore]
    simp only [List.cons_append, List.nil_append, List.map_cons, as_object, Option.bind_some]
    rw [get_cons_ne (by decide), get_cons_ne (by decide),
      get_cons_ne (by decide), get_cons_self]
    rfl
  · rw [if_neg hmore, if_neg hmore]
    simp only [List.cons_append, List.nil_append, List.map_cons, List.map_nil, as_object,
      Option.bind_some]
    rw [get_cons_ne (by decide), get_cons_ne (by decide),
      get_cons_ne (by decide), get_cons_ne (by decide),
      get_cons_ne (by decide), get_cons_ne (by decide),
      get_cons_ne (by decide)]
    rfl

/-- The pages that hold so many records; an empty observation has one, too. -/
def page_count (count : Nat) : Nat :=
  max 1 ((count + PACKAGE_PAGE_RECORDS - 1) / PACKAGE_PAGE_RECORDS)

/-- The pages from an offset on hold the rows from there on. -/
theorem follow_from {records : Records} (h : Kept records) {nonce : Nonce} (hnonce : nonce ≠ zero)
    (more : Nat) {offset : Nat} (hmod : offset % PACKAGE_PAGE_RECORDS = 0)
    (hoffset : offset = 0 ∨ offset < records.count)
    (hlast : records.count ≤ offset + PACKAGE_PAGE_RECORDS * (more + 1))
    (hmore : more = 0 ∨ offset + PACKAGE_PAGE_RECORDS * more < records.count) :
    ∃ pages, follow ⟨records⟩ nonce (more + 1) offset = some pages ∧ pages.length = more + 1 ∧
      pages.flatMap items = records.values.drop offset := by
  induction more generalizing offset with
  | zero =>
    have hstop : min (offset + PACKAGE_PAGE_RECORDS) records.count = records.count := by omega
    have hcursor := next_cursor_page_value records nonce offset records.count
    rw [if_neg (Nat.lt_irrefl _)] at hcursor
    have hpage := page_ok h hnonce hmod hoffset
    rw [hstop] at hpage
    refine ⟨[page_value records nonce offset records.count], ?_, rfl, ?_⟩
    · simp only [follow, hpage, hcursor]
    · rw [List.flatMap_cons, List.flatMap_nil, List.append_nil, items_page_value,
        Records.slice_eq]
      apply List.take_of_length_le
      rw [List.length_drop, Records.length_values]
  | succ more ih =>
    have hless : offset + PACKAGE_PAGE_RECORDS < records.count := by
      unfold PACKAGE_PAGE_RECORDS at hmore ⊢
      omega
    have hstop : min (offset + PACKAGE_PAGE_RECORDS) records.count =
      offset + PACKAGE_PAGE_RECORDS := by
      omega
    have hnext : (offset + PACKAGE_PAGE_RECORDS) % PACKAGE_PAGE_RECORDS = 0 := by
      rw [Nat.add_mod_right, hmod]
    have hcursor := next_cursor_page_value records nonce offset (offset + PACKAGE_PAGE_RECORDS)
    rw [if_pos hless] at hcursor
    have hparse := PackageCursor.parse_encode hnonce (by unfold PACKAGE_PAGE_RECORDS; omega)
      (hless.trans_le h.count) hnext
    have hpage := page_ok h hnonce hmod hoffset
    rw [hstop] at hpage
    obtain ⟨pages, hpages, hlength, hitems⟩ := ih hnext (.inr hless)
      (by unfold PACKAGE_PAGE_RECORDS at hlast ⊢; omega)
      (by unfold PACKAGE_PAGE_RECORDS at hmore ⊢; omega)
    refine ⟨page_value records nonce offset (offset + PACKAGE_PAGE_RECORDS) :: pages, ?_, ?_, ?_⟩
    · rw [follow, hpage]
      simp only [hcursor, hparse, if_true, hpages, Option.map_some]
    · rw [List.length_cons, hlength]
    · rw [List.flatMap_cons, hitems, items_page_value, Records.slice_eq, Nat.add_sub_cancel_left,
        ← List.drop_drop]
      exact List.take_append_drop _ _

/-- The pages of an observation: how many there are, and what they hold together. -/
theorem follow_all {records : Records} (h : Kept records) {nonce : Nonce} (hnonce : nonce ≠ zero) :
    ∃ pages, follow ⟨records⟩ nonce (page_count records.count) 0 = some pages ∧
      pages.length = page_count records.count ∧ pages.flatMap items = records.values := by
  have hpos : 1 ≤ page_count records.count := Nat.le_max_left _ _
  obtain ⟨more, hmore⟩ := Nat.exists_eq_add_of_le' hpos
  have hcount : page_count records.count =
      max 1 ((records.count + PACKAGE_PAGE_RECORDS - 1) / PACKAGE_PAGE_RECORDS) := rfl
  rw [hmore]
  apply follow_from h hnonce more (by decide) (.inl rfl)
  · unfold PACKAGE_PAGE_RECORDS at hcount ⊢
    omega
  · unfold PACKAGE_PAGE_RECORDS at hcount ⊢
    omega

end PackageObservation

/-! ## What an observation keeps -/

theorem kept_of_observe {R κ : Type} [LinearOrder κ] {texts : R → List (Str × Nat)}
    {valid : R → Bool} {key : R → κ} {rows sorted : List R}
    (h : observe texts valid key rows = .ok sorted) :
    sorted.length = rows.length ∧ sorted.length ≤ MAX_PACKAGE_RECORDS ∧ sorted.Perm rows ∧
      (sorted.map key).Pairwise (· < ·) ∧ ∀ row ∈ sorted, Valid texts valid row := by
  obtain ⟨hlength, hrows, -, hnodup, rfl⟩ := observe_ok.1 h
  have hperm := sort_by_key_perm key rows
  refine ⟨hperm.length_eq, hperm.length_eq ▸ hlength, hperm, sorted_of_nodup hnodup, ?_⟩
  exact fun row hrow => hrows row (hperm.mem_iff.1 hrow)

/-- The text of a member. -/
def text_member (fields : Map) (name : String) : Option Str :=
  (Map.get fields name.toList).bind as_str

/-- A number below 256 that is a member. -/
def byte_member (fields : Map) (name : String) : Option UInt8 :=
  match Map.get fields name.toList with
  | some (.Number (.PosInt n)) => if n.toNat < 256 then some n.toUInt8 else none
  | _ => none

/-- The record that an item tells of, which has four members and no others. -/
def PackageRecord.of_item : Value → Option PackageRecord
  | .Object fields => do
    let name ← text_member fields "name"
    let version ← text_member fields "version"
    let arch ← text_member fields "arch"
    let layer ← byte_member fields "layer"
    if fields.length = 4 then some ⟨name, version, arch, layer⟩ else none
  | _ => none

def OpkgStatusRecord.of_item : Value → Option OpkgStatusRecord
  | .Object fields => do
    let name ← text_member fields "name"
    let version ← text_member fields "version"
    let arch ← text_member fields "arch"
    let status ← text_member fields "status"
    if fields.length = 4 then some ⟨name, version, arch, status⟩ else none
  | _ => none

/-- The members of an item are the fields of its record. -/
theorem PackageRecord.of_item_to_value (row : PackageRecord) :
    of_item row.to_value = some row := by
  simp [of_item, to_value, members, text_member, byte_member, Map.get, List.lookup_cons, as_str,
    row.layer.toNat_lt]

theorem OpkgStatusRecord.of_item_to_value (row : OpkgStatusRecord) :
    of_item row.to_value = some row := by
  simp [of_item, to_value, members, text_member, Map.get, List.lookup_cons, as_str]

/-- The pages of an observation give out the rows of it, in the order of their keys, and nothing
else: each item tells of one row. -/
def Paged {R κ : Type} [LinearOrder κ] (key : R → κ) (of_item : Value → Option R) (rows : List R)
    (observation : PackageObservation) : Prop :=
  ∃ sorted : List R, sorted.Perm rows ∧ (sorted.map key).Pairwise (· < ·) ∧
    ∀ nonce, nonce ≠ zero → ∃ pages,
      observation.follow nonce (PackageObservation.page_count rows.length) 0 = some pages ∧
      pages.length = PackageObservation.page_count rows.length ∧
      (pages.flatMap PackageObservation.items).map of_item = sorted.map some

/-- What is read of rows that were written. -/
theorem map_of_item {R : Type} {to_value : R → Value} {of_item : Value → Option R}
    (h : ∀ row, of_item (to_value row) = some row) (rows : List R) :
    (rows.map to_value).map of_item = rows.map some := by
  rw [List.map_map]
  exact List.map_congr_left fun row _ => h row

theorem new_paged {rows : List PackageRecord} {observation : PackageObservation}
    (h : PackageObservation.new rows = .ok observation) :
    Paged PackageRecord.key PackageRecord.of_item rows observation := by
  obtain ⟨sorted, hsorted, h⟩ := except_bind_ok.1 h
  cases h
  obtain ⟨hlength, hle, hperm, hkeys, hvalid⟩ := kept_of_observe hsorted
  have hkept : Kept (.Apk sorted) := by
    refine ⟨hle, ?_⟩
    intro v hv
    obtain ⟨row, hrow, rfl⟩ := List.mem_map.1 hv
    exact PackageRecord.small (hvalid row hrow)
  refine ⟨sorted, hperm, hkeys, ?_⟩
  intro nonce hnonce
  rw [← hlength]
  obtain ⟨pages, hpages, hcount, hitems⟩ := PackageObservation.follow_all hkept hnonce
  exact ⟨pages, hpages, hcount, hitems ▸ map_of_item PackageRecord.of_item_to_value sorted⟩

theorem new_opkg_status_paged {rows : List OpkgStatusRecord} {observation : PackageObservation}
    (h : PackageObservation.new_opkg_status rows = .ok observation) :
    Paged OpkgStatusRecord.key OpkgStatusRecord.of_item rows observation := by
  obtain ⟨sorted, hsorted, h⟩ := except_bind_ok.1 h
  cases h
  obtain ⟨hlength, hle, hperm, hkeys, hvalid⟩ := kept_of_observe hsorted
  have hkept : Kept (.Opkg sorted) := by
    refine ⟨hle, ?_⟩
    intro v hv
    obtain ⟨row, hrow, rfl⟩ := List.mem_map.1 hv
    exact OpkgStatusRecord.small (hvalid row hrow)
  refine ⟨sorted, hperm, hkeys, ?_⟩
  intro nonce hnonce
  rw [← hlength]
  obtain ⟨pages, hpages, hcount, hitems⟩ := PackageObservation.follow_all hkept hnonce
  exact ⟨pages, hpages, hcount, hitems ▸ map_of_item OpkgStatusRecord.of_item_to_value sorted⟩

/-- Whoever follows the cursors of an observation from its first page on is refused no page, and has
every record once, in order and with all its fields, after so many pages as the records take. The
order in which the records came makes no difference. -/
theorem the_pages_hold_every_record_once :
    (∀ rows observation, PackageObservation.new rows = .ok observation →
      Paged PackageRecord.key PackageRecord.of_item rows observation ∧
      ∀ rows', rows.Perm rows' → PackageObservation.new rows' = .ok observation) ∧
    (∀ rows observation, PackageObservation.new_opkg_status rows = .ok observation →
      Paged OpkgStatusRecord.key OpkgStatusRecord.of_item rows observation ∧
      ∀ rows', rows.Perm rows' → PackageObservation.new_opkg_status rows' = .ok observation) := by
  refine ⟨?_, ?_⟩
  · intro rows observation h
    refine ⟨new_paged h, ?_⟩
    intro rows' hperm
    obtain ⟨sorted, hsorted, h⟩ := except_bind_ok.1 h
    exact except_bind_ok.2 ⟨sorted, observe_perm hperm hsorted, h⟩
  · intro rows observation h
    refine ⟨new_opkg_status_paged h, ?_⟩
    intro rows' hperm
    obtain ⟨sorted, hsorted, h⟩ := except_bind_ok.1 h
    exact except_bind_ok.2 ⟨sorted, observe_perm hperm hsorted, h⟩

/-- More packages than one page holds, the last of them first. -/
def seventeen : List PackageRecord :=
  "qponmlkjihgfedcba".toList.map fun c => ⟨[c], "1".toList, "noarch".toList, 0⟩

theorem the_pages_of_seventeen_packages : ∃ observation,
    PackageObservation.new seventeen = .ok observation ∧
      ∀ nonce, nonce ≠ zero → ∃ first second,
        observation.follow nonce 2 0 = some [first, second] ∧
        (PackageObservation.items first ++ PackageObservation.items second).map
          PackageRecord.of_item = seventeen.reverse.map some := by
  have hvalid : ∀ row ∈ seventeen, Valid PackageRecord.texts (fun row => row.layer ≤ 1) row := by
    unfold Valid
    decide
  have h : PackageObservation.new seventeen =
      .ok ⟨.Apk (sort_by_key PackageRecord.key seventeen)⟩ :=
    except_bind_ok.2 ⟨_, observe_ok.2 ⟨by decide, hvalid, by decide, by decide, rfl⟩, rfl⟩
  refine ⟨_, h, fun nonce hnonce => ?_⟩
  obtain ⟨sorted, hperm, hkeys, hpages⟩ := (the_pages_hold_every_record_once.1 _ _ h).1
  obtain ⟨pages, hfollow, hlength, hitems⟩ := hpages nonce hnonce
  obtain ⟨first, second, rfl⟩ := List.length_eq_two.1 hlength
  have hreverse : (seventeen.reverse.map PackageRecord.key).Pairwise (· < ·) := by
    decide
  have hsorted : sorted = seventeen.reverse :=
    List.Perm.eq_of_pairwise (fun a b _ _ hab hba => absurd hab (lt_asymm hba))
      (List.pairwise_map.1 hkeys) (List.pairwise_map.1 hreverse)
      (hperm.trans seventeen.reverse_perm.symm)
  refine ⟨first, second, hfollow, ?_⟩
  rw [← hsorted, ← hitems]
  simp

end openwrt_mcp_core.packages
