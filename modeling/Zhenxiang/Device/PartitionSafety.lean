import Zhenxiang.Device.Partition

/-! On which disks partition_scan is safe: the boot sectors that the tables lead to are few and
their chains end. -/
namespace Zhenxiang.Device
open Lib Kernel

/-- What has come up on a walk along the boot sectors: the address that extended partitions are
relative to, and the numbers of partitions in sector 0 and elsewhere. -/
structure Tally where
  base : UInt32
  prims : Nat
  logics : Nat
  deriving DecidableEq, Repr

/-- The rest of the table of the sector lba; walk goes to the sector of an extended partition. -/
def tallyTable (walk : UInt32 → Tally → Option Tally) (lba : UInt32) :
    List PartitionTableEntry → Tally → Option Tally
  | [], t => some t
  | p :: rest, t =>
    if p.fsType = 5 then
      (if t.base ≠ 0 then walk (p.startLba + t.base) t else walk p.startLba { t with base := p.startLba }).bind
        (tallyTable walk lba rest)
    else if p.fsType ≠ 0 then
      tallyTable walk lba rest
        (if lba = 0 then { t with prims := t.prims + 1 } else { t with logics := t.logics + 1 })
    else
      tallyTable walk lba rest t

/-- The walk from the sector lba on; none when it goes deeper or to a sector that ide_read refuses. -/
def tally (sector : UInt32 → Buf) : Nat → UInt32 → Tally → Option Tally
  | 0, _, _ => none
  | depth + 1, lba, t =>
    if lba ≤ maxLba then tallyTable (tally sector depth) lba (partitionTable (sector lba)) t else none

/-- What the counters and arrays of ide.c can take. -/
def Tally.Fits (t : Tally) : Prop := t.prims ≤ 3 ∧ t.logics ≤ 7

/-- The walk ends with no more partitions than fit. -/
def WalkFits (w : Option Tally) : Prop := ∃ r, w = some r ∧ r.Fits

def Scan.tally (s : Scan) : Tally := ⟨s.extLbaBase, s.pNo.toNat, s.lNo.toNat⟩

/-- partition_scan of the disk hd from s on comes back with every boot sector freed; in the model an
index outside an array, a failed ASSERT and a recursion without end do not come back. -/
def ScanSafe (D : Drives) (hd : Nat) (s : Scan) : Prop :=
  ∃ depth, Succeeds (partitionScan D hd depth 0) (fun _ t => t.buffers = s.buffers) s

section
variable {D : Drives} {hd : Nat}

/-- A call that comes back does so as well where deeper nesting is allowed. -/
theorem scanTable_deeper {scan scan' : UInt32 → Kern Scan Unit} {extLba : UInt32} {bs : Nat}
    (deeper : ∀ lba Q s, Succeeds (scan lba) Q s → Succeeds (scan' lba) Q s) (ps : List PartitionTableEntry)
    (Q : Unit → Scan → Prop) (s : Scan) (h : Succeeds (scanTable D scan hd extLba bs ps) Q s) :
    Succeeds (scanTable D scan' hd extLba bs ps) Q s := by
  induction ps generalizing s with
  | nil => exact h
  | cons p rest ih =>
    simp only [Succeeds, scanTable, wp_ite, wp_bind] at h ⊢
    obtain ⟨ext, other⟩ := h
    refine ⟨fun five => ?_, fun five => ⟨fun used => ⟨fun first => ?_, fun first => ?_⟩, fun empty => ?_⟩⟩
    · have goes := wp_post (ext five) fun _ t ht => ih t ht
      simp only [scanExtended, wp_bind, wp_get, wp_ite, wp_modify] at goes ⊢
      exact ⟨fun set => deeper _ _ _ (goes.1 set), fun unset => deeper _ _ _ (goes.2 unset)⟩
    · exact wp_post (((other five).1 used).1 first) fun _ t ht => ih t ht
    · refine wp_post (((other five).1 used).2 first) fun more t ht => ?_
      exact ⟨fun on => ih t (ht.1 on), ht.2⟩
    · exact ih s ((other five).2 empty)

theorem partitionScan_deeper {depth : Nat} (lba : UInt32) (Q : Unit → Scan → Prop) (s : Scan)
    (h : Succeeds (partitionScan D hd depth lba) Q s) : Succeeds (partitionScan D hd (depth + 1) lba) Q s := by
  induction depth generalizing lba Q s with
  | zero => simp [Succeeds, partitionScan] at h
  | succ depth ih =>
    rw [partitionScan] at h ⊢
    simp only [Succeeds, mallocSector, readSector, wp_bind, wp_get, wp_set, wp_pure, wp_assert] at h ⊢
    exact ⟨fun ok => scanTable_deeper ih _ _ _ (h.1 ok), h.2⟩

theorem partitionScan_mono {depth more : Nat} (le : depth ≤ more) (lba : UInt32) (Q : Unit → Scan → Prop) (s : Scan)
    (h : Succeeds (partitionScan D hd depth lba) Q s) : Succeeds (partitionScan D hd more lba) Q s := by
  induction le with
  | refl => exact h
  | step _ ih => exact partitionScan_deeper lba Q s ih

end

section
variable {walk : UInt32 → Tally → Option Tally} {lba : UInt32}

def Tally.Below (t r : Tally) : Prop := t.prims ≤ r.prims ∧ t.logics ≤ r.logics

theorem Tally.Below.fits {t r : Tally} (h : t.Below r) (hr : r.Fits) : t.Fits :=
  ⟨Nat.le_trans h.1 hr.1, Nat.le_trans h.2 hr.2⟩

theorem tallyTable_below (hw : ∀ lba t r, walk lba t = some r → t.Below r) (ps : List PartitionTableEntry)
    (t r : Tally) (h : tallyTable walk lba ps t = some r) : t.Below r := by
  induction ps generalizing t with
  | nil =>
    cases h
    exact ⟨Nat.le_refl _, Nat.le_refl _⟩
  | cons p rest ih =>
    rw [tallyTable] at h
    split at h
    · obtain ⟨m, hm, hr⟩ := Option.bind_eq_some_iff.mp h
      have first : t.Below m := by
        split at hm
        · exact hw _ _ _ hm
        · exact hw _ { t with base := p.startLba } _ hm
      have next := ih m hr
      exact ⟨Nat.le_trans first.1 next.1, Nat.le_trans first.2 next.2⟩
    · split at h
      · have next := ih _ h
        split at next
        · exact ⟨Nat.le_of_succ_le next.1, next.2⟩
        · exact ⟨next.1, Nat.le_of_succ_le next.2⟩
      · exact ih t h

theorem tally_below (sector : UInt32 → Buf) (depth : Nat) (lba : UInt32) (t r : Tally)
    (h : tally sector depth lba t = some r) : t.Below r := by
  induction depth generalizing lba t r with
  | zero => cases h
  | succ depth ih =>
    rw [tally] at h
    split at h
    · exact tallyTable_below ih _ _ _ h
    · cases h

end

section
variable {D : Drives} {hd : Nat} {scan : UInt32 → Kern Scan Unit} {extLba : UInt32} {bs : Nat}

theorem recordPrim_keeps (p : PartitionTableEntry) (s : Scan) :
    Returns (recordPrim D hd extLba p) (fun _ t => t.buffers = s.buffers) s := by
  simp [Returns, recordPrim, wp_ite, Scan.addPrim]

theorem recordLogic_keeps (p : PartitionTableEntry) (s : Scan) :
    Returns (recordLogic D hd extLba p) (fun _ t => t.buffers = s.buffers) s := by
  simp [Returns, recordLogic, wp_ite, Scan.addLogic]

theorem recordPrim_spec (p : PartitionTableEntry) {s : Scan} (h : s.tally.Fits) :
    wp (recordPrim D hd extLba p)
      (fun _ t => t.buffers = s.buffers ∧ t.tally = { s.tally with prims := s.tally.prims + 1 } ∧ t.tally.Fits)
      (fun _ => s.tally.prims = 3) s := by
  have hp : s.pNo.toNat ≤ 3 := h.1
  have hn : (s.pNo + 1).toNat = s.pNo.toNat + 1 := by
    rw [UInt8.toNat_add]
    exact Nat.mod_eq_of_lt (by simp; omega)
  have lt : s.pNo.toNat < 4 := by omega
  simp only [recordPrim, wp_bind, wp_get, if_pos lt, wp_set, wp_assert, Scan.addPrim, Scan.tally, hn]
  constructor
  · intro fits
    have fits : (s.pNo + 1).toNat < 4 := fits
    exact ⟨trivial, trivial, ⟨by show s.pNo.toNat + 1 ≤ 3; omega, h.2⟩⟩
  · intro full
    have full : ¬ (s.pNo + 1).toNat < 4 := full
    show s.pNo.toNat = 3
    omega

/-- The value is whether the loop goes on. -/
theorem recordLogic_spec (p : PartitionTableEntry) {s : Scan} (h : s.tally.Fits) :
    Succeeds (recordLogic D hd extLba p)
      (fun more t => t.buffers = s.buffers ∧ t.tally = { s.tally with logics := s.tally.logics + 1 } ∧
        (more = true ↔ t.tally.Fits)) s := by
  have hp : s.lNo.toNat ≤ 7 := h.2
  have hn : (s.lNo + 1).toNat = s.lNo.toNat + 1 := by
    rw [UInt8.toNat_add]
    exact Nat.mod_eq_of_lt (by simp; omega)
  have lt : s.lNo.toNat < 8 := by omega
  have more : s.lNo + 1 < 8 ↔ (s.lNo + 1).toNat < 8 := Iff.rfl
  simp only [Succeeds, recordLogic, wp_bind, wp_get, if_pos lt, wp_set, wp_pure, Scan.addLogic, Scan.tally, hn,
    decide_eq_true_eq, more]
  refine ⟨trivial, trivial, fun few => ⟨h.1, Nat.le_of_lt_succ few⟩, fun fits => Nat.lt_succ_of_le fits.2⟩

theorem scanExtended_keeps (hs : ∀ lba s, Returns (scan lba) (fun _ t => s.buffers.length ≤ t.buffers.length) s)
    (p : PartitionTableEntry) (s : Scan) :
    Returns (scanExtended scan p) (fun _ t => s.buffers.length ≤ t.buffers.length) s := by
  simp only [Returns, scanExtended, wp_bind, wp_get, wp_ite, wp_modify]
  exact ⟨fun _ => hs _ s, fun _ => hs _ { s with extLbaBase := p.startLba }⟩

/-- Of the boot sectors that are allocated at most the table's own is freed. -/
theorem scanTable_keeps (hs : ∀ lba s, Returns (scan lba) (fun _ t => s.buffers.length ≤ t.buffers.length) s)
    (ps : List PartitionTableEntry) (s : Scan) :
    Returns (scanTable D scan hd extLba bs ps) (fun _ t => s.buffers.length ≤ t.buffers.length + 1) s := by
  induction ps generalizing s with
  | nil =>
    have len := List.le_length_erase (a := bs) (l := s.buffers)
    simp only [Returns, scanTable, freeSector, wp_modify]
    omega
  | cons p rest ih =>
    have next (t : Scan) (ht : s.buffers.length ≤ t.buffers.length) :
        Returns (scanTable D scan hd extLba bs rest) (fun _ u => s.buffers.length ≤ u.buffers.length + 1) t :=
      wp_post (ih t) fun _ u hu => Nat.le_trans ht hu
    simp only [Returns, scanTable, wp_ite, wp_bind]
    refine ⟨fun _ => ?_, fun _ => ⟨fun _ => ⟨fun _ => ?_, fun _ => ?_⟩, fun _ => ih s⟩⟩
    · exact wp_post (scanExtended_keeps hs p s) fun _ t ht => next t ht
    · exact wp_post (recordPrim_keeps p s) fun _ t ht => next t (Nat.le_of_eq (congrArg List.length ht.symm))
    · refine wp_post (recordLogic_keeps p s) fun more t ht => ?_
      have len : s.buffers.length = t.buffers.length := congrArg List.length ht.symm
      exact ⟨fun _ => next t (Nat.le_of_eq len), fun _ => (wp_pure ()).mpr (Nat.le_succ_of_le (Nat.le_of_eq len))⟩

theorem partitionScan_keeps (depth : Nat) (lba : UInt32) (s : Scan) :
    Returns (partitionScan D hd depth lba) (fun _ t => s.buffers.length ≤ t.buffers.length) s := by
  induction depth generalizing lba s with
  | zero => simp [Returns, partitionScan]
  | succ depth ih =>
    simp only [Returns, partitionScan, mallocSector, readSector, wp_bind, wp_get, wp_set, wp_pure, wp_assert]
    refine ⟨fun _ => wp_post (scanTable_keeps ih _ _) fun _ t ht => ?_, fun _ => trivial⟩
    exact Nat.le_of_succ_le_succ ht

/-- How a call comes back that began with these boot sectors and whose walk is w: with the same
boot sectors, or with more when the walk does not fit. -/
def Outcome (buffers : List Nat) (w : Option Tally) (t : Scan) : Prop :=
  (t.buffers = buffers ∧ w = some t.tally ∧ t.tally.Fits) ∨ (buffers.length < t.buffers.length ∧ ¬ WalkFits w)

/-- A call of scan does what the walk tells. -/
def Follows (scan : UInt32 → Kern Scan Unit) (walk : UInt32 → Tally → Option Tally) : Prop :=
  ∀ lba s, s.tally.Fits → wp (scan lba) (fun _ t => Outcome s.buffers (walk lba s.tally) t)
    (fun _ => ¬ WalkFits (walk lba s.tally)) s

variable {walk : UInt32 → Tally → Option Tally}

theorem scanExtended_follows (hs : Follows scan walk) (p : PartitionTableEntry) {s : Scan} (h : s.tally.Fits) :
    let w := if s.tally.base ≠ 0 then walk (p.startLba + s.tally.base) s.tally
      else walk p.startLba { s.tally with base := p.startLba }
    wp (scanExtended scan p) (fun _ t => Outcome s.buffers w t) (fun _ => ¬ WalkFits w) s := by
  simp only [scanExtended, wp_bind, wp_get, wp_ite, wp_modify]
  constructor
  · intro hb
    rw [if_pos (show s.tally.base ≠ 0 from hb)]
    exact hs _ s h
  · intro hb
    rw [if_neg (show ¬ s.tally.base ≠ 0 from hb)]
    exact hs _ { s with extLbaBase := p.startLba } h

theorem scanTable_follows (hs : Follows scan walk)
    (hk : ∀ lba s, Returns (scan lba) (fun _ t => s.buffers.length ≤ t.buffers.length) s)
    (hw : ∀ lba t r, walk lba t = some r → t.Below r) (ps : List PartitionTableEntry) {s : Scan}
    {buffers : List Nat} (own : s.buffers = bs :: buffers) (h : s.tally.Fits) :
    wp (scanTable D scan hd extLba bs ps) (fun _ t => Outcome buffers (tallyTable walk extLba ps s.tally) t)
      (fun _ => ¬ WalkFits (tallyTable walk extLba ps s.tally)) s := by
  have beyond (ps : List PartitionTableEntry) {t : Tally} (full : ¬ t.Fits) : ¬ WalkFits (tallyTable walk extLba ps t) := by
    rintro ⟨r, hr, fits⟩
    exact full ((tallyTable_below hw ps t r hr).fits fits)
  have len : s.buffers.length = buffers.length + 1 := by rw [own, List.length_cons]
  induction ps generalizing s with
  | nil =>
    simp only [scanTable, freeSector, wp_modify, own, List.erase_cons_head]
    exact .inl ⟨rfl, rfl, h⟩
  | cons p rest ih =>
    simp only [scanTable, tallyTable, wp_ite, wp_bind]
    refine ⟨fun ext => ?_, fun ext => ⟨fun used => ⟨fun first => ?_, fun first => ?_⟩, fun used => ?_⟩⟩
    · rw [if_pos ext]
      generalize hz : (if s.tally.base ≠ 0 then walk (p.startLba + s.tally.base) s.tally
        else walk p.startLba { s.tally with base := p.startLba }) = w
      have early (no : ¬ WalkFits w) : ¬ WalkFits (w.bind (tallyTable walk extLba rest)) := by
        rintro ⟨r, hr, fits⟩
        obtain ⟨m, hm, hmr⟩ := Option.bind_eq_some_iff.mp hr
        exact no ⟨m, hm, (tallyTable_below hw rest m r hmr).fits fits⟩
      refine wp_mono (hz ▸ scanExtended_follows hs p h) (fun _ t ht => ?_) fun _ no => early no
      obtain ⟨same, walked, fits⟩ | ⟨more, no⟩ := ht
      · subst walked
        exact ih (same.trans own) fits (by rw [same, len])
      · refine wp_mono (scanTable_keeps hk rest t) (fun _ u hu => .inr ⟨by omega, early no⟩) fun _ _ => early no
    · rw [if_neg ext, if_pos used, if_pos first]
      refine wp_mono (recordPrim_spec p h) (fun _ t ht => ?_) fun _ full => ?_
      · obtain ⟨same, counted, fits⟩ := ht
        rw [← counted]
        exact ih (same.trans own) fits (by rw [same, len])
      · exact beyond rest fun fits => by
          have most : s.tally.prims + 1 ≤ 3 := fits.1
          omega
    · rw [if_neg ext, if_pos used, if_neg first]
      refine wp_mono (recordLogic_spec p h) (fun more t ht => ?_) fun _ no => no.elim
      obtain ⟨same, counted, goes⟩ := ht
      rw [← counted]
      refine ⟨fun on => ih (same.trans own) (goes.mp on) (by rw [same, len]), fun off => ?_⟩
      exact (wp_pure ()).mpr (.inr ⟨by rw [same, len]; exact Nat.lt_succ_self _, beyond rest (mt goes.mpr off)⟩)
    · rw [if_neg ext, if_neg used]
      exact ih own h len

theorem partitionScan_follows (depth : Nat) :
    Follows (partitionScan D hd depth) (tally (D.sector hd) depth) := by
  induction depth with
  | zero =>
    intro lba s _
    simp [partitionScan, tally, WalkFits]
  | succ depth ih =>
    intro lba s h
    simp only [partitionScan, tally, mallocSector, readSector, wp_bind, wp_get, wp_set, wp_pure, wp_assert]
    constructor
    · intro ok
      rw [if_pos ok]
      exact scanTable_follows (s := { s with buffers := s.fresh :: s.buffers, fresh := s.fresh + 1 })
        ih (partitionScan_keeps depth) (tally_below _ depth) _ rfl h
    · rintro bad ⟨r, hr, _⟩
      rw [if_neg bad] at hr
      cases hr

/-- The scan of a disk is safe exactly when the boot sectors that its tables lead to have no cycle
and lie below the limit of ide_read, with at most three partitions in sector 0 and seven in others. -/
theorem partitionScan_safe (D : Drives) (hd : Nat) (s : Scan) (start : s.pNo = 0 ∧ s.lNo = 0) :
    ScanSafe D hd s ↔
      ∃ depth r, tally (D.sector hd) depth 0 ⟨s.extLbaBase, 0, 0⟩ = some r ∧ r.prims ≤ 3 ∧ r.logics ≤ 7 := by
  have zero : s.tally = ⟨s.extLbaBase, 0, 0⟩ := by simp [Scan.tally, start]
  have fits : s.tally.Fits := by simp [zero, Tally.Fits]
  rw [ScanSafe, ← zero]
  refine exists_congr fun depth => succeeds_exact (wp_mono (partitionScan_follows depth 0 s fits) ?_ fun _ no => no)
  intro _ t ht
  obtain ⟨same, walked, fit⟩ | ⟨more, no⟩ := ht
  · exact ⟨fun _ => ⟨t.tally, walked, fit⟩, fun _ => same⟩
  · exact ⟨fun same => absurd same (fun h => Nat.ne_of_gt more (congrArg List.length h)), fun walk => absurd walk no⟩

end

/-- A boot sector with this table; what is missing of it is empty. -/
def bootSector (table : List PartitionTableEntry) : Buf := fun k =>
  match table[(k - 446) / 16]?, (k - 446) % 16 with
  | none, _ => 0
  | some p, o =>
    if k < 446 then 0
    else if o = 4 then p.fsType
    else if 8 ≤ o ∧ o < 12 then byteAt p.startLba.toNat (o - 8)
    else if 12 ≤ o then byteAt p.secCnt.toNat (o - 12)
    else 0

/-- The globals as the kernel starts. -/
def scanStart : Scan :=
  ⟨0, 0, 0, fun _ _ => ⟨0, 0, 0, ""⟩, fun _ _ => ⟨0, 0, 0, ""⟩, [], [], 0⟩

/-- One primary and two logical partitions. -/
def primaryAndChain : Drives where
  sector _ lba :=
    if lba = 0 then bootSector [⟨0x83, 63, 1000⟩, ⟨5, 2000, 9000⟩]
    else if lba = 2000 then bootSector [⟨0x83, 63, 1000⟩, ⟨5, 3000, 1000⟩]
    else bootSector [⟨0x83, 63, 900⟩]
  name _ := "sdb"

theorem partitionScan_safe_chain : ScanSafe primaryAndChain 1 scanStart :=
  (partitionScan_safe primaryAndChain 1 scanStart ⟨rfl, rfl⟩).2
    ⟨3, ⟨2000, 1, 2⟩, by decide +kernel, by decide, by decide⟩

def fourPrimaries : Drives where
  sector _ _ := bootSector [⟨0x83, 63, 1000⟩, ⟨0x83, 2000, 1000⟩, ⟨0x83, 4000, 1000⟩, ⟨0x83, 6000, 1000⟩]
  name _ := "sdb"

/-- The ASSERT behind the increment fails for the fourth primary partition. -/
theorem partitionScan_fourth_primary : ¬ ScanSafe fourPrimaries 1 scanStart := by
  rintro ⟨depth, h⟩
  obtain ⟨_, t, run, _⟩ := succeeds_iff.mp h
  cases depth with
  | zero => cases run
  | succ depth =>
    have stop : partitionScan fourPrimaries 1 (depth + 1) 0 scanStart = .error .assertion := rfl
    rw [stop] at run
    cases run

end Zhenxiang.Device
