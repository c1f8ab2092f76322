-- The cache over whole runs: what is not revoked is the entry of its object, and a probe revokes
-- everything that was observed of the object before.
import OpenwrtMcp.DispatcherReplay
import OpenwrtMcp.ObservationLaws

open json maps tasks text
open openwrt_mcp_core

namespace openwrt_mcp_runtime

abbrev Happening := Moment Call Answer Event Request
abbrev History := List Happening

/-- The observation was put into the cache, as the entry of the object. -/
def Inserted (history : History) (object : ReviewedObject) (observation : Observation) : Prop :=
  ∃ i, .answered i (.insert_entry object observation) () ∈ history

/-- The observation was given to a request, which may use it. -/
def Issued (history : History) (observation : Observation) : Prop :=
  ∃ i, .answered i (.set_issued observation) () ∈ history

section
variable {history later : History} {m : Happening} {object : ReviewedObject}
  {entry observation : Observation}

theorem Inserted.mono (h : Inserted history object entry) :
    Inserted (history ++ later) object entry := by
  obtain ⟨i, hi⟩ := h
  exact ⟨i, List.mem_append_left _ hi⟩

/-- A moment that puts nothing into the cache, issues nothing and starts no probe. -/
structure Plain (m : Happening) : Prop where
  insert : ∀ i object entry, m ≠ .answered i (.insert_entry object entry) ()
  issue : ∀ i observation, m ≠ .answered i (.set_issued observation) ()
  probe : ∀ i object limits, m ≠ .answered i (.begins (.probe object limits)) ()

theorem inserted_snoc (hm : ∀ i object entry, m ≠ .answered i (.insert_entry object entry) ()) :
    Inserted (history ++ [m]) object entry ↔ Inserted history object entry := by
  constructor
  · rintro ⟨i, hi⟩
    rcases List.mem_append.1 hi with hi | hi
    · exact ⟨i, hi⟩
    · exact absurd (List.mem_singleton.1 hi).symm (hm i object entry)
  · exact Inserted.mono

theorem issued_snoc (hm : ∀ i observation, m ≠ .answered i (.set_issued observation) ()) :
    Issued (history ++ [m]) observation ↔ Issued history observation := by
  constructor
  · rintro ⟨i, hi⟩
    rcases List.mem_append.1 hi with hi | hi
    · exact ⟨i, hi⟩
    · exact absurd (List.mem_singleton.1 hi).symm (hm i observation)
  · rintro ⟨i, hi⟩
    exact ⟨i, List.mem_append_left _ hi⟩

end

/-! ## The invariant -/

/-- What the shared part of the cache keeps to; `Owed` are the flags that are still to be
cleared. -/
structure CacheState (history : History) (s : World) (Owed : Nat → Prop) : Prop where
  entries : ∀ object entry, s.entries.get object = some entry → Inserted history object entry
  observed : ∀ object entry, Inserted history object entry → entry.epoch.isSome = true ∧
    ∃ valid : Bool, s.flags[entry.valid]? = some valid ∧
      (valid = true → s.entries.get object = some entry ∨ Owed entry.valid)
  issued : ∀ observation, Issued history observation →
    Blank observation ∨ ∃ object, Inserted history object observation
  probed : ∀ (before later : History) (i : Nat) (object : ReviewedObject) (limits : Limits),
    history = before ++ .answered i (.begins (.probe object limits)) () :: later →
      ∀ entry, Inserted before object entry → s.flags[entry.valid]? = some false

/-- Only its own calls touch the cache. -/
theorem exec_cache {i : Nat} {c : Call} {a : Answer c} {s s' : World} (h : exec i c s a s')
    (hc : c.part ∉ [.Entries, .Evidence, .Flags]) :
    s'.entries_locked = s.entries_locked ∧ s'.entries = s.entries ∧ s'.flags = s.flags := by
  cases c with
  | lock_entries | unlock_entries | get_entry | remove_entry | insert_entry | new_flag
  | clear_flag => simp [Call.part] at hc
  | store_failed | release_waiter | release_gate | release_permit | set_issued | unlock_slot
  | set_slot | nonce | begins | returns =>
    obtain rfl := h
    exact ⟨rfl, rfl, rfl⟩
  | _ =>
    obtain ⟨-, rfl⟩ := h
    exact ⟨rfl, rfl, rfl⟩

theorem outside_cache {e : Event} {s s' : World} (h : outside s e s') :
    s'.entries_locked = s.entries_locked ∧ s'.entries = s.entries ∧ s'.flags = s.flags := by
  cases e with
  | turns =>
    obtain rfl := h
    exact ⟨rfl, rfl, rfl⟩
  | gives_back =>
    obtain ⟨ok, -, rfl⟩ := h
    exact ⟨rfl, rfl, rfl⟩
  | _ =>
    obtain ⟨-, rfl⟩ := h
    exact ⟨rfl, rfl, rfl⟩

namespace Keeper

/-- What a program holds is so. -/
structure Fits (history : History) (s : World) (l : Keeper) : Prop where
  lock : ∀ m, l.lock = some m → s.entries_locked = true ∧ m = s.entries
  debt : l.owed.isSome = true → l.lock.isSome = true
  cleared : ∀ valid ∈ l.cleared, s.flags[valid]? = some false
  made : ∀ valid ∈ l.made, valid < s.flags.length
  seen : ∀ e ∈ l.seen, Inserted history e.1 e.2

/-- Somebody has still to clear this flag. -/
def Owed (ls : List Keeper) (valid : Nat) : Prop :=
  ∃ (i : Nat) (l : Keeper), ls[i]? = some l ∧ l.owed = some valid

structure Inv (history : History) (s : World) (ls : List Keeper) : Prop where
  shared : CacheState history s (Owed ls)
  fits : ∀ (i : Nat) (l : Keeper), ls[i]? = some l → l.Fits history s
  one_holder : ∀ (i j : Nat) (l l' : Keeper), ls[i]? = some l → ls[j]? = some l' →
    l.lock.isSome = true → l'.lock.isSome = true → i = j

section
variable {history : History} {s s' : World} {ls : List Keeper} {l l' : Keeper} {i : Nat}
  {m : Happening} {O O' : Nat → Prop}

/-- A plain moment leaves the shared part as it is, and what is owed stays so. -/
theorem quiet_shared (h : CacheState history s O) (hm : Plain m) (hentries : s'.entries = s.entries)
    (hflags : ∀ (valid : Nat) (b : Bool), s.flags[valid]? = some b → s'.flags[valid]? = some b)
    (hO : ∀ valid, O valid → O' valid) : CacheState (history ++ [m]) s' O' where
  entries object entry hentry := (h.entries object entry (hentries ▸ hentry)).mono
  observed object entry hentry := by
    rw [hentries]
    obtain ⟨hepoch, valid, hvalid, hkept⟩ :=
      h.observed object entry ((inserted_snoc hm.insert).1 hentry)
    exact ⟨hepoch, valid, hflags _ _ hvalid, fun htrue => (hkept htrue).imp_right (hO _)⟩
  issued observation hissued :=
    (h.issued observation ((issued_snoc hm.issue).1 hissued)).imp_right
      fun ⟨object, hin⟩ => ⟨object, hin.mono⟩
  probed before later i object limits hsplit := by
    rcases split_snoc hsplit with ⟨-, hlast⟩ | ⟨later', hsplit'⟩
    · exact absurd hlast.symm (hm.probe i object limits)
    · exact fun entry hentry =>
        hflags _ _ (h.probed before later' i object limits hsplit' entry hentry)

theorem Fits.other (h : l.Fits history s) {later : History}
    (hfree : l.lock = none ∨ s'.entries_locked = s.entries_locked ∧ s'.entries = s.entries)
    (hflags : ∀ valid : Nat, s.flags[valid]? = some false → s'.flags[valid]? = some false)
    (hlength : s.flags.length ≤ s'.flags.length) : l.Fits (history ++ later) s' where
  lock m hm := by
    rcases hfree with hnone | ⟨hlocked, hentries⟩
    · rw [hnone] at hm
      cases hm
    · rw [hlocked, hentries]
      exact h.lock m hm
  debt := h.debt
  cleared valid hvalid := hflags valid (h.cleared valid hvalid)
  made valid hvalid := lt_of_lt_of_le (h.made valid hvalid) hlength
  seen e he := (h.seen e he).mono

theorem set_get {j : Nat} {x : Keeper} (h : (ls.set i l')[j]? = some x) :
    (j = i ∧ x = l') ∨ (j ≠ i ∧ ls[j]? = some x) := by
  rw [List.getElem?_set] at h
  split at h
  · rename_i hij
    split at h
    · exact .inl ⟨hij.symm, (Option.some.inj h).symm⟩
    · cases h
  · rename_i hij
    exact .inr ⟨fun heq => hij heq.symm, h⟩

theorem get_set (hl : ls[i]? = some l) : (ls.set i l')[i]? = some l' := by
  rw [List.getElem?_set_self (List.getElem?_eq_some_iff.1 hl).1]

/-- What others owe they still owe, and so does this one if it did not. -/
theorem Owed.set {valid : Nat} (h : Owed ls valid) (hl : ls[i]? = some l)
    (hkeep : l.owed = some valid → l'.owed = some valid) : Owed (ls.set i l') valid := by
  obtain ⟨j, x, hx, howed⟩ := h
  rcases eq_or_ne j i with rfl | hne
  · rw [hl] at hx
    cases hx
    exact ⟨j, l', get_set hl, hkeep howed⟩
  · exact ⟨j, x, by rw [List.getElem?_set_ne hne.symm]; exact hx, howed⟩

theorem Inv.others_free (h : Inv history s ls) (hl : ls[i]? = some l)
    (hlock : l.lock.isSome = true) {j : Nat} {x : Keeper} (hne : j ≠ i) (hx : ls[j]? = some x) :
    x.lock = none := by
  by_contra hsome
  exact hne (h.one_holder j i x l hx hl (Option.isSome_iff_ne_none.2 hsome) hlock)

theorem Inv.nobody (h : Inv history s ls) (hfree : s.entries_locked = false) {j : Nat} {x : Keeper}
    (hx : ls[j]? = some x) : x.lock = none := by
  cases hlock : x.lock with
  | none => rfl
  | some m =>
    have hlocked := ((h.fits j x hx).lock m hlock).1
    rw [hfree] at hlocked
    cases hlocked

/-- Only the holder of the lock owes anything. -/
theorem Inv.not_owed (h : Inv history s ls) (hl : ls[i]? = some l) (hlock : l.lock.isSome = true)
    (howed : l.owed = none) {valid : Nat} : ¬ Owed ls valid := by
  rintro ⟨j, x, hx, hsome⟩
  have hj : x.lock.isSome = true := (h.fits j x hx).debt (by rw [hsome]; rfl)
  obtain rfl := h.one_holder j i x l hx hl hj hlock
  rw [hl] at hx
  cases hx
  rw [howed] at hsome
  cases hsome

/-- One program goes on, and the others hold what they held. -/
theorem Inv.step (h : Inv history s ls) {history' : History}
    (hshared : CacheState history' s' (Owed (ls.set i l'))) (hfits : l'.Fits history' s')
    (hothers : ∀ j x, j ≠ i → ls[j]? = some x → x.Fits history' s')
    (hlock : l'.lock.isSome = true → ∀ j x, j ≠ i → ls[j]? = some x → x.lock = none) :
    Inv history' s' (ls.set i l') := by
  refine ⟨hshared, ?_, ?_⟩
  · intro j x hx
    rcases set_get hx with ⟨-, rfl⟩ | ⟨hne, hx'⟩
    · exact hfits
    · exact hothers j x hne hx'
  · intro j k x y hx hy hxlock hylock
    rcases set_get hx with ⟨rfl, rfl⟩ | ⟨hj, hx'⟩
    · rcases set_get hy with ⟨rfl, -⟩ | ⟨hk, hy'⟩
      · rfl
      · rw [hlock hxlock k y hk hy'] at hylock
        cases hylock
    · rcases set_get hy with ⟨rfl, rfl⟩ | ⟨hk, hy'⟩
      · rw [hlock hylock j x hj hx'] at hxlock
        cases hxlock
      · exact h.one_holder j k x y hx' hy' hxlock hylock

/-! ## The steps -/

theorem Inv.quiet (h : Inv history s ls) (hm : Plain m)
    (hlocked : s'.entries_locked = s.entries_locked) (hentries : s'.entries = s.entries)
    (hflags : s'.flags = s.flags) : Inv (history ++ [m]) s' ls where
  shared := quiet_shared h.shared hm hentries (fun _ _ hf => by rw [hflags]; exact hf)
    fun _ howed => howed
  fits i l hl := (h.fits i l hl).other (.inr ⟨hlocked, hentries⟩)
    (fun _ hf => by rw [hflags]; exact hf) (by rw [hflags])
  one_holder := h.one_holder

theorem Inv.locks (h : Inv history s ls) (hl : ls[i]? = some l)
    (hfree : s.entries_locked = false) :
    Inv (history ++ [.answered i .lock_entries s.entries]) { s with entries_locked := true }
      (ls.set i (l.after .lock_entries s.entries)) := by
  have hothers : ∀ j x, ls[j]? = some x → Fits (history ++ [.answered i .lock_entries s.entries])
      { s with entries_locked := true } x := fun j x hx =>
    (h.fits j x hx).other (.inl (h.nobody hfree hx)) (fun _ hf => hf) (Nat.le_refl _)
  have hfits : Fits (history ++ [.answered i .lock_entries s.entries])
      { s with entries_locked := true } (l.after .lock_entries s.entries) :=
    { hothers i l hl with
      lock := fun m hm => ⟨rfl, (Option.some.inj hm).symm⟩
      debt := fun _ => rfl }
  refine h.step ?_ hfits (fun j x _ hx => hothers j x hx) fun _ j x _ hx => h.nobody hfree hx
  exact quiet_shared h.shared ⟨by simp, by simp, by simp⟩ rfl (fun _ _ hf => hf)
    fun _ howed => howed.set hl fun hlast => hlast

theorem Inv.unlocks (h : Inv history s ls) (hl : ls[i]? = some l) (hheld : l.Holding) :
    Inv (history ++ [.answered i .unlock_entries ()]) { s with entries_locked := false }
      (ls.set i (l.after .unlock_entries ())) := by
  have hbase : Fits (history ++ [.answered i .unlock_entries ()]) s l :=
    (h.fits i l hl).other (.inr ⟨rfl, rfl⟩) (fun _ hf => hf) (Nat.le_refl _)
  have hfits : Fits (history ++ [.answered i .unlock_entries ()])
      { s with entries_locked := false } (l.after .unlock_entries ()) :=
    { hbase with
      lock := fun m hm => by cases hm
      debt := by
        intro (hsome : l.owed.isSome = true)
        rw [hheld.2] at hsome
        cases hsome }
  refine h.step ?_ hfits ?_ fun hsome => by cases hsome
  · exact quiet_shared h.shared ⟨by simp, by simp, by simp⟩ rfl (fun _ _ hf => hf)
      fun _ howed => howed.set hl fun hlast => hlast
  · exact fun j x hne hx => (h.fits j x hx).other (.inl (h.others_free hl hheld.1 hne hx))
      (fun _ hf => hf) (Nat.le_refl _)

theorem Inv.gets (h : Inv history s ls) (hl : ls[i]? = some l) (hheld : l.Holding)
    (object : ReviewedObject) :
    Inv (history ++ [.answered i (.get_entry object) (s.entries.get object)]) s
      (ls.set i (l.after (.get_entry object) (s.entries.get object))) := by
  have hm : Plain (.answered i (.get_entry object) (s.entries.get object)) :=
    ⟨by simp, by simp, by simp⟩
  have hq : Inv (history ++ [.answered i (.get_entry object) (s.entries.get object)]) s ls :=
    h.quiet hm rfl rfl rfl
  have hfits : Fits (history ++ [.answered i (.get_entry object) (s.entries.get object)]) s
      (l.after (.get_entry object) (s.entries.get object)) :=
    { hq.fits i l hl with
      seen := by
        rintro e (he | ⟨rfl, he⟩)
        · exact (hq.fits i l hl).seen e he
        · exact hq.shared.entries e.1 e.2 he.symm }
  refine h.step ?_ hfits (fun j x _ hx => hq.fits j x hx)
    fun _ j x hne hx => h.others_free hl hheld.1 hne hx
  exact quiet_shared h.shared hm rfl (fun _ _ hf => hf)
    fun _ howed => howed.set hl fun hlast => hlast

theorem Inv.removes (h : Inv history s ls) (hl : ls[i]? = some l) (hheld : l.Holding)
    (object : ReviewedObject) :
    Inv (history ++ [.answered i (.remove_entry object) (s.entries.get object)])
      { s with entries := s.entries.remove object }
      (ls.set i (l.after (.remove_entry object) (s.entries.get object))) := by
  have hm : Plain (.answered i (.remove_entry object) (s.entries.get object)) :=
    ⟨by simp, by simp, by simp⟩
  have hq : Inv (history ++ [.answered i (.remove_entry object) (s.entries.get object)]) s ls :=
    h.quiet hm rfl rfl rfl
  have hmine := hq.fits i l hl
  have hlock : (l.after (.remove_entry object) (s.entries.get object)).lock.isSome = true :=
    Option.isSome_map.trans hheld.1
  refine h.step ?_ ?_ ?_ fun _ j x hne hx => h.others_free hl hheld.1 hne hx
  · refine ⟨?_, ?_, hq.shared.issued, hq.shared.probed⟩
    · intro object' entry hentry
      rw [BTreeMap.get_remove] at hentry
      split at hentry
      · cases hentry
      · exact hq.shared.entries object' entry hentry
    · intro object' entry hentry
      obtain ⟨hepoch, valid, hvalid, hkept⟩ := hq.shared.observed object' entry hentry
      refine ⟨hepoch, valid, hvalid, fun htrue => ?_⟩
      rcases hkept htrue with hfound | howed
      · rw [BTreeMap.get_remove]
        split
        · rename_i hobject
          subst hobject htrue
          refine .inr ⟨i, _, get_set hl, ?_⟩
          have hnot : entry.valid ∉ l.cleared := by
            intro hcleared
            rw [hmine.cleared _ hcleared] at hvalid
            cases hvalid
          rw [hfound]
          exact if_neg hnot
        · exact .inl hfound
      · exact absurd howed (h.not_owed hl hheld.1 hheld.2)
  · exact
      { hmine with
        lock := by
          intro m hm
          obtain ⟨m', hm', rfl⟩ := Option.map_eq_some_iff.1 hm
          obtain ⟨hlocked, rfl⟩ := hmine.lock m' hm'
          exact ⟨hlocked, rfl⟩
        debt := fun _ => hlock }
  · exact fun j x hne hx => (h.fits j x hx).other (.inl (h.others_free hl hheld.1 hne hx))
      (fun _ hf => hf) (Nat.le_refl _)

theorem Inv.inserts (h : Inv history s ls) (hl : ls[i]? = some l) {object : ReviewedObject}
    {entry : Observation} (hmay : l.may (.insert_entry object entry)) :
    Inv (history ++ [.answered i (.insert_entry object entry) ()])
      { s with entries := s.entries.insert object entry }
      (ls.set i (l.after (.insert_entry object entry) ())) := by
  obtain ⟨hheld, hnone, hepoch, hmade⟩ := hmay
  have hmine := h.fits i l hl
  obtain ⟨m, hlock⟩ := Option.isSome_iff_exists.1 hheld.1
  obtain ⟨hlocked, rfl⟩ := hmine.lock m hlock
  have hempty := hnone _ hlock
  have hnew : Inserted (history ++ [.answered i (.insert_entry object entry) ()]) object entry :=
    ⟨i, by simp⟩
  have hold : ∀ {object' entry'},
    Inserted (history ++ [.answered i (.insert_entry object entry) ()])
      object' entry' → Inserted history object' entry' ∨ (object' = object ∧ entry' = entry) := by
    rintro object' entry' ⟨j, hj⟩
    rcases List.mem_append.1 hj with hj | hj
    · exact .inl ⟨j, hj⟩
    · cases List.mem_singleton.1 hj
      exact .inr ⟨rfl, rfl⟩
  have hbase : Fits (history ++ [.answered i (.insert_entry object entry) ()]) s l :=
    hmine.other (.inr ⟨rfl, rfl⟩) (fun _ hf => hf) (Nat.le_refl _)
  refine h.step ?_ ?_ ?_ fun _ j x hne hx => h.others_free hl hheld.1 hne hx
  · refine ⟨?_, ?_, ?_, ?_⟩
    · intro object' entry' hentry
      rw [BTreeMap.get_insert] at hentry
      split at hentry
      · rename_i hobject
        cases hentry
        exact hobject ▸ hnew
      · exact (h.shared.entries object' entry' hentry).mono
    · intro object' entry' hentry
      rcases hold hentry with hentry | ⟨rfl, rfl⟩
      · obtain ⟨hepoch', valid, hvalid, hkept⟩ := h.shared.observed object' entry' hentry
        refine ⟨hepoch', valid, hvalid, fun htrue => .inl ?_⟩
        have hkept := (hkept htrue).resolve_right (h.not_owed hl hheld.1 hheld.2)
        rw [BTreeMap.get_insert, if_neg ?_]
        · exact hkept
        · rintro rfl
          rw [hempty] at hkept
          cases hkept
      · have hlt := hmine.made _ hmade
        exact ⟨hepoch, _, List.getElem?_eq_getElem hlt,
          fun _ => .inl (by rw [BTreeMap.get_insert, if_pos rfl])⟩
    · intro observation hissued
      rw [issued_snoc (by simp)] at hissued
      exact (h.shared.issued observation hissued).imp_right fun ⟨object, hin⟩ => ⟨object, hin.mono⟩
    · intro before later j object' limits hsplit
      rcases split_snoc hsplit with ⟨-, hlast⟩ | ⟨later', hsplit'⟩
      · cases hlast
      · exact h.shared.probed before later' j object' limits hsplit'
  · exact
      { hbase with
        lock := by
          intro m hm
          obtain ⟨m', hm', rfl⟩ := Option.map_eq_some_iff.1 hm
          rw [hlock] at hm'
          cases hm'
          exact ⟨hlocked, rfl⟩
        debt := fun _ => Option.isSome_map.trans hheld.1
        seen := by
          rintro e (rfl | he)
          · exact hnew
          · exact (hmine.seen e he).mono }
  · exact fun j x hne hx => (h.fits j x hx).other (.inl (h.others_free hl hheld.1 hne hx))
      (fun _ hf => hf) (Nat.le_refl _)

theorem Inv.makes (h : Inv history s ls) (hl : ls[i]? = some l) :
    Inv (history ++ [.answered i .new_flag s.flags.length]) { s with flags := s.flags ++ [true] }
      (ls.set i (l.after .new_flag s.flags.length)) := by
  have hkeep : ∀ (valid : Nat) (b : Bool), s.flags[valid]? = some b →
      (s.flags ++ [true])[valid]? = some b := fun _ _ hf =>
    (List.getElem?_append_left (List.getElem?_eq_some_iff.1 hf).1).trans hf
  have hothers : ∀ j x, ls[j]? = some x → Fits (history ++ [.answered i .new_flag s.flags.length])
      { s with flags := s.flags ++ [true] } x := fun j x hx =>
    (h.fits j x hx).other (.inr ⟨rfl, rfl⟩) (fun _ => hkeep _ _) (by simp)
  refine h.step ?_ ?_ (fun j x _ hx => hothers j x hx)
    fun hsome j x hne hx => h.others_free hl hsome hne hx
  · exact quiet_shared h.shared ⟨by simp, by simp, by simp⟩ rfl hkeep
      fun _ howed => howed.set hl fun hlast => hlast
  · exact
      { hothers i l hl with
        made := by
          rintro valid (rfl | hvalid)
          · show s.flags.length < (s.flags ++ [true]).length
            simp
          · exact (hothers i l hl).made valid hvalid }

/-- A flag that is cleared is owed no more, and no flag comes back. -/
theorem Inv.clears (h : Inv history s ls) (hl : ls[i]? = some l) {valid : Nat}
    (hlt : valid < s.flags.length) (hmay : l.owed = none ∨ l.owed = some valid) :
    Inv (history ++ [.answered i (.clear_flag valid) ()])
      { s with flags := s.flags.set valid false } (ls.set i (l.after (.clear_flag valid) ())) := by
  have hm : Plain (.answered i (.clear_flag valid) ()) := ⟨by simp, by simp, by simp⟩
  have hfalse : ∀ other : Nat, s.flags[other]? = some false →
      (s.flags.set valid false)[other]? = some false := by
    intro other hother
    rcases eq_or_ne valid other with rfl | hne
    · exact List.getElem?_set_self hlt
    · rw [List.getElem?_set_ne hne]
      exact hother
  have hothers : ∀ j x, ls[j]? = some x → Fits (history ++ [.answered i (.clear_flag valid) ()])
      { s with flags := s.flags.set valid false } x := fun j x hx =>
    (h.fits j x hx).other (.inr ⟨rfl, rfl⟩) hfalse (by simp)
  refine h.step ?_ ?_ (fun j x _ hx => hothers j x hx)
    fun hsome j x hne hx => h.others_free hl hsome hne hx
  · have hq : CacheState (history ++ [.answered i (.clear_flag valid) ()]) s (Owed ls) :=
      quiet_shared h.shared hm rfl (fun _ _ hf => hf) fun _ howed => howed
    refine ⟨hq.entries, ?_, hq.issued, ?_⟩
    · intro object entry hentry
      obtain ⟨hepoch, b, hb, hkept⟩ := hq.observed object entry hentry
      refine ⟨hepoch, ?_⟩
      by_cases heq : valid = entry.valid
      · exact ⟨false, by rw [← heq, List.getElem?_set_self hlt], fun hb => by cases hb⟩
      · refine ⟨b, by rw [List.getElem?_set_ne heq]; exact hb, fun htrue => ?_⟩
        refine (hkept htrue).imp_right fun howed => howed.set hl fun hmine => ?_
        rcases hmay with hnone | hsome
        · rw [hnone] at hmine
          cases hmine
        · exact absurd (Option.some.inj (hsome.symm.trans hmine)) heq
    · exact fun before later j object limits hsplit entry hentry =>
        hfalse _ (hq.probed before later j object limits hsplit entry hentry)
  · exact
      { hothers i l hl with
        debt := fun hsome => by cases hsome
        cleared := by
          rintro other (rfl | hother)
          · exact List.getElem?_set_self hlt
          · exact (hothers i l hl).cleared other hother }

theorem set_same (hl : ls[i]? = some l) : ls.set i l = ls := by
  obtain ⟨hi, rfl⟩ := List.getElem?_eq_some_iff.1 hl
  exact List.set_getElem_self hi

theorem Inv.issues (h : Inv history s ls) (hl : ls[i]? = some l) {observation : Observation}
    (hhas : l.Has observation) :
    Inv (history ++ [.answered i (.set_issued observation) ()])
      { s with issued := Function.update s.issued i (some observation) } ls := by
  have hold : ∀ {object entry}, Inserted (history ++ [.answered i (.set_issued observation) ()])
      object entry → Inserted history object entry := fun hin => (inserted_snoc (by simp)).1 hin
  refine ⟨⟨?_, ?_, ?_, ?_⟩, fun j x hx => ?_, h.one_holder⟩
  · exact fun object entry hentry => (h.shared.entries object entry hentry).mono
  · exact fun object entry hentry => h.shared.observed object entry (hold hentry)
  · rintro other ⟨j, hj⟩
    rcases List.mem_append.1 hj with hj | hj
    · exact (h.shared.issued other ⟨j, hj⟩).imp_right fun ⟨object, hin⟩ => ⟨object, hin.mono⟩
    · cases List.mem_singleton.1 hj
      exact hhas.imp_right fun ⟨object, hseen⟩ => ⟨object, ((h.fits i l hl).seen _ hseen).mono⟩
  · intro before later j object limits hsplit
    rcases split_snoc hsplit with ⟨-, hlast⟩ | ⟨later', hsplit'⟩
    · cases hlast
    · exact h.shared.probed before later' j object limits hsplit'
  · exact (h.fits j x hx).other (.inr ⟨rfl, rfl⟩) (fun _ hf => hf) (Nat.le_refl _)

/-- The holder of the lock probes when the object has no entry, so nothing of it is still valid. -/
theorem Inv.probes (h : Inv history s ls) (hl : ls[i]? = some l) {object : ReviewedObject}
    {limits : Limits} (hmay : l.may (.begins (.probe object limits))) :
    Inv (history ++ [.answered i (.begins (.probe object limits)) ()]) s ls := by
  obtain ⟨hheld, hnone⟩ := hmay
  obtain ⟨m, hlock⟩ := Option.isSome_iff_exists.1 hheld.1
  obtain ⟨-, rfl⟩ := (h.fits i l hl).lock m hlock
  have hempty := hnone _ hlock
  have hrevoked : ∀ entry, Inserted history object entry → s.flags[entry.valid]? = some false := by
    intro entry hentry
    obtain ⟨-, b, hb, hkept⟩ := h.shared.observed object entry hentry
    cases b with
    | false => exact hb
    | true =>
      rcases hkept rfl with hfound | howed
      · rw [hempty] at hfound
        cases hfound
      · exact absurd howed (h.not_owed hl hheld.1 hheld.2)
  refine ⟨⟨?_, ?_, ?_, ?_⟩, fun j x hx => ?_, h.one_holder⟩
  · exact fun object' entry hentry => (h.shared.entries object' entry hentry).mono
  · exact fun object' entry hentry =>
      h.shared.observed object' entry ((inserted_snoc (by simp)).1 hentry)
  · exact fun observation hissued =>
      (h.shared.issued observation ((issued_snoc (by simp)).1 hissued)).imp_right
        fun ⟨object', hin⟩ => ⟨object', hin.mono⟩
  · intro before later j object' limits' hsplit
    rcases split_snoc hsplit with ⟨rfl, hlast⟩ | ⟨later', hsplit'⟩
    · cases hlast
      exact hrevoked
    · exact h.shared.probed before later' j object' limits' hsplit'
  · exact (h.fits j x hx).other (.inr ⟨rfl, rfl⟩) (fun _ hf => hf) (Nat.le_refl _)

theorem Inv.start (h : Inv history s ls) {r : Request} :
    Inv (history ++ [.started ls.length r]) s (ls ++ [idle]) := by
  have hq : Inv (history ++ [.started ls.length r]) s ls :=
    h.quiet ⟨by simp, by simp, by simp⟩ rfl rfl rfl
  have hnew : ∀ {j : Nat} {x : Keeper}, (ls ++ [idle])[j]? = some x → ls[j]? = some x ∨
    x = idle := by
    intro j x hx
    rw [List.getElem?_append] at hx
    split at hx
    · exact .inl hx
    · exact .inr (List.mem_singleton.1 (List.mem_of_getElem? hx))
  refine ⟨quiet_shared h.shared ⟨by simp, by simp, by simp⟩ rfl (fun _ _ hf => hf) ?_, ?_, ?_⟩
  · rintro valid ⟨j, x, hx, howed⟩
    exact ⟨j, x, List.getElem?_append_left (List.getElem?_eq_some_iff.1 hx).1 ▸ hx, howed⟩
  · intro j x hx
    rcases hnew hx with hx | rfl
    · exact hq.fits j x hx
    · exact ⟨by simp [idle], by simp [idle], by simp [idle], by simp [idle], by simp [idle]⟩
  · intro j k x y hx hy hxlock hylock
    rcases hnew hx with hx | rfl
    · rcases hnew hy with hy | rfl
      · exact h.one_holder j k x y hx hy hxlock hylock
      · cases hylock
    · cases hxlock

/-- A call that leaves the cache as it is. -/
theorem Inv.goes_on (h : Inv history s ls) (hl : ls[i]? = some l) {c : Call} {a : Answer c}
    (hexec : exec i c s a s') (hcache : c.part ∉ [.Entries, .Evidence, .Flags])
    (hsame : l.after c a = l) (hm : Plain (.answered i c a)) :
    Inv (history ++ [.answered i c a]) s' (ls.set i (l.after c a)) := by
  obtain ⟨hlocked, hentries, hflags⟩ := exec_cache hexec hcache
  rw [hsame, set_same hl]
  exact h.quiet hm hlocked hentries hflags

end

/-! ## Runs -/

/-- Every program keeps to the contract of the cache, and nobody keeps the lock. -/
noncomputable def protocol (d : Dispatcher) (time : Nat) (epoch : Option Nat) :
    Protocol (d.system time epoch) Keeper where
  toContract := evidence
  fresh _ _ := idle
  ended l _ := l.AtRest
  gone := AtRest
  Inv := Inv

section
variable {d : Dispatcher} {time : Nat} {epoch : Option Nat} {history : History}

theorem protocol_kept : (protocol d time epoch).Kept where
  initial := by
    refine ⟨⟨?_, ?_, ?_, ?_⟩, by simp, by simp⟩
    · intro object entry hentry
      cases hentry
    · rintro object entry ⟨i, hi⟩
      cases hi
    · rintro observation ⟨i, hi⟩
      cases hi
    · intro before later i object limits hsplit
      simp at hsplit
  start h := ⟨(sides d).program _ _ ⟨rfl, rfl⟩, h.start⟩
  call := by
    intro history s ls i l c a s' h hl hmay hexec
    cases c with
    | lock_entries =>
      obtain ⟨hfree, rfl, rfl⟩ := hexec
      exact ⟨trivial, h.locks hl hfree⟩
    | unlock_entries =>
      obtain rfl := hexec
      exact ⟨trivial, h.unlocks hl hmay⟩
    | get_entry object =>
      obtain ⟨rfl, rfl⟩ := hexec
      exact ⟨fun m hm => by rw [((h.fits i l hl).lock m hm).2], h.gets hl hmay object⟩
    | remove_entry object =>
      obtain ⟨rfl, rfl⟩ := hexec
      exact ⟨fun m hm => by rw [((h.fits i l hl).lock m hm).2], h.removes hl hmay object⟩
    | insert_entry object entry =>
      obtain rfl := hexec
      exact ⟨trivial, h.inserts hl hmay⟩
    | new_flag =>
      obtain ⟨rfl, rfl⟩ := hexec
      exact ⟨trivial, h.makes hl⟩
    | clear_flag valid =>
      obtain ⟨hlt, rfl⟩ := hexec
      exact ⟨trivial, h.clears hl hlt hmay⟩
    | set_issued observation =>
      obtain rfl := hexec
      exact ⟨trivial, (set_same hl).symm ▸ h.issues hl hmay.2⟩
    | begins call =>
      cases call with
      | probe object limits =>
        obtain rfl := hexec
        exact ⟨trivial, (set_same hl).symm ▸ h.probes hl hmay⟩
      | _ =>
        exact ⟨trivial, h.goes_on hl hexec (by simp [Call.part]) rfl
          ⟨by simp, by simp, by simp⟩⟩
    | returns call =>
      cases call with
      | _ =>
        exact ⟨trivial, h.goes_on hl hexec (by simp [Call.part]) rfl
          ⟨by simp, by simp, by simp⟩⟩
    | _ =>
      exact ⟨trivial, h.goes_on hl hexec (by simp [Call.part]) rfl ⟨by simp, by simp, by simp⟩⟩
  late h := h.quiet ⟨by simp, by simp, by simp⟩ rfl rfl rfl
  cancelled h := h.quiet ⟨by simp, by simp, by simp⟩ rfl rfl rfl
  outside h hout := by
    obtain ⟨hlocked, hentries, hflags⟩ := outside_cache hout
    exact h.quiet ⟨by simp, by simp, by simp⟩ hlocked hentries hflags

theorem may_owed {l : Keeper} {c : Call} {valid : Nat} (h : l.may c) (howed : l.owed = some valid) :
    c = .clear_flag valid := by
  have hne : l.owed ≠ none := by simp [howed]
  cases c with
  | lock_entries => exact absurd h.2 hne
  | unlock_entries => exact absurd h.2 hne
  | get_entry object => exact absurd h.2 hne
  | remove_entry object => exact absurd h.2 hne
  | insert_entry object entry => exact absurd h.1.2 hne
  | set_issued observation => exact absurd h.1.2 hne
  | clear_flag other =>
    rcases h with hnone | hsome
    · exact absurd hnone hne
    · rw [Option.some.inj (hsome.symm.trans howed)]
  | begins call =>
    cases call with
    | probe object limits => exact absurd h.1.2 hne
    | _ => exact absurd h hne
  | _ => exact absurd h hne

/-- Who owes a flag clears it next. -/
theorem holds_owed {r : Running Call Answer Nat (Except RuntimeError Reply)} {l : Keeper}
    {valid : Nat} (h : (protocol d time epoch).Holds r l) (howed : l.owed = some valid) :
    r.next = some (.clear_flag valid) := by
  have hrest : ¬ l.AtRest := fun hrest => by
    rw [hrest.2] at howed
    cases howed
  cases r with
  | active t =>
    cases t with
    | done a => exact absurd h hrest
    | call c next => exact congrArg some (may_owed h.1 howed)
    | wait c next drop => exact congrArg some (may_owed h.1 howed)
    | timed c limit next late drop => exact congrArg some (may_owed h.1 howed)
  | dropped cs =>
    cases cs with
    | nil => exact absurd h hrest
    | cons c cs => exact congrArg some (may_owed h.1 howed)

end

end Keeper

section
variable {d : Dispatcher} {time : Nat} {epoch : Option Nat} {history : History}
  {p : Pool World Call Answer Nat (Except RuntimeError Reply)}

/-- Whatever was issued is blank or was observed of an object. As long as it is not revoked, it is
the entry of the object, but for the moment before the request that took it out revokes it. -/
theorem what_is_not_revoked_is_the_entry (h : Reached (d.system time epoch) history p) :
    (∀ observation, Issued history observation → Blank observation ∨
      observation.epoch.isSome = true ∧ ∃ object, Inserted history object observation) ∧
    ∀ object entry, Inserted history object entry → p.shared.flags[entry.valid]? = some true →
      p.shared.entries.get object = some entry ∨
        ∃ (i : Nat) (r : Running Call Answer Nat (Except RuntimeError Reply)),
          p.running[i]? = some r ∧ r.next = some (.clear_flag entry.valid) := by
  obtain ⟨ls, hgood⟩ := (Keeper.protocol_kept (d := d)).reached h
  have hshared := hgood.inv.shared
  refine ⟨?_, ?_⟩
  · intro observation hissued
    refine (hshared.issued observation hissued).imp_right fun ⟨object, hin⟩ => ?_
    exact ⟨(hshared.observed object observation hin).1, object, hin⟩
  · intro object entry hin hvalid
    obtain ⟨-, b, hb, hkept⟩ := hshared.observed object entry hin
    rw [hb] at hvalid
    refine (hkept (Option.some.inj hvalid)).imp_right ?_
    rintro ⟨i, l, hl, howed⟩
    have hi : i < p.running.length := by
      rw [← hgood.length]
      exact (List.getElem?_eq_some_iff.1 hl).1
    exact ⟨i, p.running[i], List.getElem?_eq_getElem hi,
      Keeper.holds_owed (hgood.holds i _ l (List.getElem?_eq_getElem hi) hl) howed⟩

def issues : Happening → Bool
  | .answered _ (.set_issued observation) _ => observation.epoch.isSome
  | _ => false

theorem the_observation_of_a_scan_is_the_entry :
    ∃ scene, played (scan_script 17) = some scene ∧ scene.1.any issues = true ∧
      ∀ object entry, Inserted scene.1 object entry →
        scene.2.shared.flags[entry.valid]? = some true →
        scene.2.shared.entries.get object = some entry ∨
          ∃ (i : Nat) (r : Running Call Answer Nat (Except RuntimeError Reply)),
            scene.2.running[i]? = some r ∧ r.next = some (.clear_flag entry.valid) := by
  obtain ⟨scene, hscene, hreached, hissues⟩ :=
    played_to (scan_script 17) (fun scene => scene.1.any issues) (by decide +kernel)
  exact ⟨scene, hscene, hissues, (what_is_not_revoked_is_the_entry hreached).2⟩

/-- Once a probe of an object has begun, nothing that was observed of it before is ever read as
valid again, however the probe ends. -/
theorem a_probe_outdates_what_was_observed_before (h : Reached (d.system time epoch) history p) :
    ∀ before later i object limits,
      history = before ++ .answered i (.begins (.probe object limits)) () :: later →
      ∀ entry, Inserted before object entry →
        ∀ j a, .answered j (.load_flag entry.valid) a ∈ later → a = false := by
  rintro before later i object limits rfl entry hin j a hmem
  obtain ⟨middle, rest, rfl⟩ := List.append_of_mem hmem
  have hsplit : before ++ .answered i (.begins (.probe object limits)) () ::
      (middle ++ .answered j (.load_flag entry.valid) a :: rest) =
      (before ++ .answered i (.begins (.probe object limits)) () :: middle) ++
        .answered j (.load_flag entry.valid) a :: rest := by
    simp
  obtain ⟨q, s', hreached, hflag, -⟩ := h.exec_at hsplit
  obtain ⟨ls, hgood⟩ := (Keeper.protocol_kept (d := d)).reached hreached
  have hrevoked := hgood.inv.shared.probed before middle i object limits rfl entry hin
  exact Option.some.inj (hflag.symm.trans hrevoked)

def reads_revoked : Happening → Bool
  | .answered _ (.load_flag _) valid => !valid
  | _ => false

/-- A second request refreshes the observation while the scan still holds it. -/
def refresh_script : List (Cue Event Request) :=
  scan_script 17 ++ .request refresh_request :: List.replicate 9 (.turn 1) ++ written 1 ++
    List.replicate 13 (.turn 1) ++ List.replicate 2 (.turn 0)

theorem a_refresh_outdates_the_observation_of_a_scan :
    ∃ scene, played refresh_script = some scene ∧ scene.1.any reads_revoked = true ∧
      ∀ before later i object limits,
        scene.1 = before ++ .answered i (.begins (.probe object limits)) () :: later →
        ∀ entry, Inserted before object entry →
          ∀ j a, .answered j (.load_flag entry.valid) a ∈ later → a = false := by
  obtain ⟨scene, hscene, hreached, hreads⟩ :=
    played_to refresh_script (fun scene => scene.1.any reads_revoked) (by decide +kernel)
  exact ⟨scene, hscene, hreads, a_probe_outdates_what_was_observed_before hreached⟩

end

end openwrt_mcp_runtime
