-- The list of files that an archive must have: which lists are accepted, and that their order
-- makes no difference.
import OpenwrtMcp.ArchiveHeader

open slices text

namespace openwrt_mcp_device_codec.archive

/-- The separator of a path. -/
def SLASH : UInt8 := 47

/-- A file would be a directory of a file. -/
def Nested (files : List ExpectedFile) : Prop :=
  ∃ f ∈ files, ∃ g ∈ files, f.path ++ [SLASH] <+: g.path

instance (files : List ExpectedFile) : Decidable (Nested files) :=
  inferInstanceAs (Decidable (∃ f ∈ files, ∃ g ∈ files, f.path ++ [SLASH] <+: g.path))

theorem find_path_some {files : List ExpectedFile}
    (hinc : (files.map ExpectedFile.path).Pairwise (· < ·)) (path : Bytes) :
    (find_path files path).toOption.isSome = true ↔ ∃ f ∈ files, f.path = path := by
  have hfind := find_path_ok_iff hinc path
  constructor
  · intro h
    cases hi : find_path files path with
    | error j => simp [hi, Except.toOption] at h
    | ok i =>
      obtain ⟨f, hf, hpath⟩ := Option.map_eq_some_iff.1 ((hfind i).1 hi)
      exact ⟨f, List.mem_of_getElem? hf, hpath⟩
  · rintro ⟨f, hf, rfl⟩
    obtain ⟨i, hi⟩ := List.getElem?_of_mem hf
    rw [(hfind i).2 (by rw [hi]; rfl)]
    rfl

/-- Every separator is tried, and the part before it is looked for among all the files. -/
theorem has_ancestor_iff {files : List ExpectedFile}
    (hinc : (files.map ExpectedFile.path).Pairwise (· < ·)) (g : ExpectedFile) :
    has_ancestor files g = true ↔ ∃ f ∈ files, f.path ++ [SLASH] <+: g.path := by
  unfold has_ancestor
  simp only [List.any_eq_true, Bool.and_eq_true, decide_eq_true_eq, find_path_some hinc]
  constructor
  · rintro ⟨⟨byte, i⟩, hmem, rfl, f, hf, hpath⟩
    have hget := List.mem_zipIdx_iff_getElem?.1 hmem
    refine ⟨f, hf, ?_⟩
    have htake : g.path.take (i + 1) = g.path.take i ++ [SLASH] := by
      rw [List.take_add_one]
      simp only at hget
      rw [hget]
      rfl
    rw [hpath, ← htake]
    exact List.take_prefix _ _
  · rintro ⟨f, hf, rest, hrest⟩
    refine ⟨(SLASH, f.path.length), List.mem_zipIdx_iff_getElem?.2 ?_, rfl, f, hf, ?_⟩
    · rw [← hrest]
      simp
    · rw [← hrest]
      simp

/-! ## What `new` answers -/

theorem add_sizes_eq (files : List ExpectedFile) {n : Nat} (hn : n ≤ MAX_PAYLOAD_BYTES) :
    add_sizes files n =
      if n + (files.map ExpectedFile.size).sum ≤ MAX_PAYLOAD_BYTES then
        .ok (n + (files.map ExpectedFile.size).sum)
      else .error .LimitExceeded := by
  induction files generalizing n with
  | nil => simp [add_sizes, hn]
  | cons f files ih =>
    unfold add_sizes
    rw [List.map_cons, List.sum_cons, ← Nat.add_assoc]
    by_cases hle : n + f.size ≤ MAX_PAYLOAD_BYTES
    · have hword : n + f.size < 2 ^ 64 := by
        unfold MAX_PAYLOAD_BYTES at hle
        omega
      rw [if_pos ⟨hword, hle⟩, ih hle]
    · rw [if_neg (fun h => hle h.2), if_neg (by omega)]

/-- The sorted files decide about the list as it was given. -/
theorem any_has_ancestor {files : List ExpectedFile}
    (hnodup : (files.map ExpectedFile.path).Nodup) :
    (sort_by_key ExpectedFile.path files).any (has_ancestor (sort_by_key ExpectedFile.path files)) =
      true ↔ Nested files := by
  rw [List.any_eq_true]
  constructor
  · rintro ⟨g, hg, h⟩
    obtain ⟨f, hf, hprefix⟩ := (has_ancestor_iff (sorted_of_nodup hnodup) g).1 h
    exact ⟨f, mem_sort_by_key.1 hf, g, mem_sort_by_key.1 hg, hprefix⟩
  · rintro ⟨f, hf, g, hg, hprefix⟩
    exact ⟨g, mem_sort_by_key.2 hg,
      (has_ancestor_iff (sorted_of_nodup hnodup) g).2 ⟨f, mem_sort_by_key.2 hf, hprefix⟩⟩

/-- The answer in the words of the list as it was given. -/
theorem ExpectedArchive.new_eq (files : List ExpectedFile) :
    ExpectedArchive.new files =
      if files = [] then .error .InvalidManifest
      else if files.length > MAX_FILES then .error .LimitExceeded
      else if (files.map ExpectedFile.size).sum > MAX_PAYLOAD_BYTES then .error .LimitExceeded
      else if ¬ (files.map ExpectedFile.path).Nodup ∨ Nested files then .error .InvalidManifest
      else .ok ⟨sort_by_key ExpectedFile.path files, (files.map ExpectedFile.size).sum⟩ := by
  unfold ExpectedArchive.new
  rw [add_sizes_eq files (Nat.zero_le _), Nat.zero_add]
  by_cases hempty : files = []
  · simp [hempty]
  rw [if_neg (by simpa using hempty), if_neg hempty]
  by_cases hlen : files.length > MAX_FILES
  · rw [if_pos hlen, if_pos hlen]
  rw [if_neg hlen, if_neg hlen]
  by_cases hsum : (files.map ExpectedFile.size).sum ≤ MAX_PAYLOAD_BYTES
  · rw [if_pos hsum, if_neg (Nat.not_lt.2 hsum)]
    dsimp only
    by_cases hnodup : (files.map ExpectedFile.path).Nodup
    · have hneighbours := neighbours_iff.2 hnodup
      rw [if_neg (by simpa using hneighbours)]
      simp only [any_has_ancestor hnodup, hnodup, not_true_eq_false, false_or]
    · have hneighbours := mt neighbours_iff.1 hnodup
      rw [if_pos (by simpa using hneighbours), if_pos (Or.inl hnodup)]
  · rw [if_neg hsum, if_pos (Nat.lt_of_not_le hsum)]

theorem nested_perm {files files' : List ExpectedFile} (h : files.Perm files') :
    Nested files ↔ Nested files' := by
  simp only [Nested, h.mem_iff]

/-- An archive is expected exactly from a list of 1 to 4096 files of at most 64 MiB in all with
different paths, none of which is a directory above another. The order of the list makes no
difference, also to the error, and the files come out sorted by their paths. -/
theorem a_manifest_is_a_set_of_files :
    (∀ files : List ExpectedFile, (∃ expected, ExpectedArchive.new files = .ok expected) ↔
      (1 ≤ files.length ∧ files.length ≤ 4096) ∧
        (files.map ExpectedFile.size).sum ≤ 64 * 1024 * 1024 ∧
        (files.map ExpectedFile.path).Nodup ∧
        ∀ f ∈ files, ∀ g ∈ files, ¬ f.path ++ [SLASH] <+: g.path) ∧
    (∀ files files' : List ExpectedFile, files.Perm files' →
      ExpectedArchive.new files = ExpectedArchive.new files') ∧
    ∀ files expected, ExpectedArchive.new files = .ok expected →
      expected.files.Perm files ∧
        (expected.files.map ExpectedFile.path).Pairwise (· < ·) ∧
        expected.payload_bytes = (files.map ExpectedFile.size).sum := by
  refine ⟨fun files => ?_, fun files files' hperm => ?_, fun files expected h => ?_⟩
  · have hnested : ¬ Nested files ↔ ∀ f ∈ files, ∀ g ∈ files, ¬ f.path ++ [SLASH] <+: g.path := by
      simp [Nested]
    have hlen : files ≠ [] ↔ 1 ≤ files.length := List.length_pos_iff.symm
    have hmax : ¬ files.length > MAX_FILES ↔ files.length ≤ 4096 := Nat.not_lt
    have hsum : ¬ (files.map ExpectedFile.size).sum > MAX_PAYLOAD_BYTES ↔
        (files.map ExpectedFile.size).sum ≤ 64 * 1024 * 1024 := Nat.not_lt
    rw [ExpectedArchive.new_eq, ← hnested, ← hlen, ← hmax, ← hsum]
    split_ifs with h1 h2 h3 h4
    · simp [h1]
    · simp [h2]
    · simp [h3]
    · have hbad : ¬ ((files.map ExpectedFile.path).Nodup ∧ ¬ Nested files) := by tauto
      simp [hbad]
    · rw [not_or, not_not] at h4
      simp [h1, h2, h3, h4]
  · have hnodup := (hperm.map ExpectedFile.path).nodup_iff
    have hsum := (hperm.map ExpectedFile.size).sum_eq
    have hempty : files = [] ↔ files' = [] := by
      rw [← List.length_eq_zero_iff, ← List.length_eq_zero_iff, hperm.length_eq]
    simp only [ExpectedArchive.new_eq, hperm.length_eq, hsum, nested_perm hperm, hnodup, hempty]
    split_ifs with h1 h2 h3 h4
    · rfl
    · rfl
    · rfl
    · rfl
    · rw [not_or, not_not] at h4
      rw [sort_eq_of_perm hperm (hnodup.2 h4.1)]
  · have hmanifest := ExpectedArchive.new_manifest h
    exact ⟨hmanifest.perm, hmanifest.increasing, hmanifest.payload⟩

def hosts : ExpectedFile := ⟨bytes "etc/hosts".toList, 5, by decide, by decide⟩

def group : ExpectedFile := ⟨bytes "etc/group".toList, 3, by decide, by decide⟩

theorem a_manifest_of_two_files : ∃ expected, ExpectedArchive.new [hosts, group] = .ok expected ∧
    ExpectedArchive.new [group, hosts] = .ok expected ∧ expected.files.Perm [hosts, group] ∧
      expected.payload_bytes = 8 := by
  obtain ⟨hiff, hperm, hall⟩ := a_manifest_is_a_set_of_files
  obtain ⟨expected, h⟩ := (hiff [hosts, group]).2 (by decide)
  obtain ⟨hfiles, -, hsum⟩ := hall _ _ h
  refine ⟨expected, h, ?_, hfiles, hsum⟩
  rw [hperm [group, hosts] [hosts, group] (.swap _ _ _)]
  exact h

end openwrt_mcp_device_codec.archive
