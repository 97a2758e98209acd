import Zhenxiang.Device.PartitionSafety

/-! What ide_init records of well-formed disks: an MBR with at most one extended partition, whose
boot records form a chain. Each disk is described by itself; ext_lba_base, which partition_scan
keeps from one disk to the next, is where the scan of a disk depends on the others. -/
namespace Zhenxiang.Device
open Lib Kernel

structure Extent where
  startLba : UInt32
  secCnt : UInt32
  deriving DecidableEq, Repr

/-- What an entry that is not an extended one describes, in the sector lba. -/
def described (lba : UInt32) (p : PartitionTableEntry) : List Extent :=
  if p.fsType = 0 ∨ p.fsType = 5 then [] else [⟨lba + p.startLba, p.secCnt⟩]

def primaries (sector : UInt32 → Buf) : List Extent := (partitionTable (sector 0)).flatMap (described 0)

/-- The chain of extended boot records from lba on, with the partitions they describe: the entry 0
is relative to its own sector, the entry 1 leads on relative to the extended partition ext. -/
inductive EbrChain (sector : UInt32 → Buf) (ext : UInt32) : UInt32 → List UInt32 → List Extent → Prop
  | last {lba : UInt32} {p e f g : PartitionTableEntry} (away : lba ≠ 0)
      (table : partitionTable (sector lba) = [p, e, f, g]) (own : p.fsType ≠ 5)
      (ends : e.fsType = 0) (f_empty : f.fsType = 0) (g_empty : g.fsType = 0) :
      EbrChain sector ext lba [lba] (described lba p)
  | link {lba : UInt32} {p e f g : PartitionTableEntry} {ebrs : List UInt32} {parts : List Extent} (away : lba ≠ 0)
      (table : partitionTable (sector lba) = [p, e, f, g]) (own : p.fsType ≠ 5)
      (leads : e.fsType = 5) (f_empty : f.fsType = 0) (g_empty : g.fsType = 0)
      (next : EbrChain sector ext (e.startLba + ext) ebrs parts) :
      EbrChain sector ext lba (lba :: ebrs) (described lba p ++ parts)

/-- The entries for extended partitions in the MBR. -/
def extended (table : List PartitionTableEntry) : List PartitionTableEntry :=
  table.filter fun p => p.fsType = 5

/-- A disk with these boot records in its extended partition, and these logical partitions. -/
structure WellFormed (sector : UInt32 → Buf) (ebrs : List UInt32) (logical : List Extent) : Prop where
  few : logical.length ≤ 8
  chain : (extended (partitionTable (sector 0)) = [] ∧ ebrs = [] ∧ logical = []) ∨
    ∃ p, extended (partitionTable (sector 0)) = [p] ∧ EbrChain sector p.startLba p.startLba ebrs logical

def PartTag.disk : PartTag → Nat
  | .prim hd _ => hd
  | .logic hd _ => hd

def listed (t : Scan) (hd : Nat) : List PartTag := t.partitionList.filter fun g => g.disk = hd

/-- An array of the disk hd begins with these partitions, numbered from first on in their names. -/
def Filled (D : Drives) (hd first : Nat) (l : List Extent) (parts : Nat → Partition) : Prop :=
  ∀ k (h : k < l.length), parts k = ⟨l[k].startLba, l[k].secCnt, hd, D.name hd ++ toString (k + first)⟩

/-- The arrays of the disk hd begin with these partitions, and the list has each of them once. -/
structure Recorded (D : Drives) (hd : Nat) (prims logics : List Extent) (t : Scan) : Prop where
  prim : Filled D hd 1 prims (t.primParts hd)
  logic : Filled D hd 5 logics (t.logicParts hd)
  once : (listed t hd).Perm
    ((List.range prims.length).map (.prim hd) ++ (List.range logics.length).map (.logic hd))

/-- The scan of the disk hd has come this far. -/
structure Progress (D : Drives) (hd : Nat) (prims logics : List Extent) (t : Scan) : Prop
    extends Recorded D hd prims logics t where
  pNo : t.pNo.toNat = prims.length
  lNo : t.lNo.toNat = logics.length

/-- What the other disks have stays. -/
def SameElse (hd : Nat) (s t : Scan) : Prop :=
  ∀ d, d ≠ hd → t.primParts d = s.primParts d ∧ t.logicParts d = s.logicParts d ∧ listed t d = listed s d

section
variable {D : Drives} {hd : Nat} {prims logics : List Extent} {s t u : Scan}

theorem SameElse.refl (hd : Nat) (s : Scan) : SameElse hd s s := fun _ _ => ⟨rfl, rfl, rfl⟩

theorem SameElse.trans (h : SameElse hd s t) (k : SameElse hd t u) : SameElse hd s u := fun d hd =>
  ⟨(k d hd).1.trans (h d hd).1, (k d hd).2.1.trans (h d hd).2.1, (k d hd).2.2.trans (h d hd).2.2⟩

theorem Recorded.congr {d : Nat} (h : Recorded D d prims logics s) (same : SameElse hd s t) (ne : d ≠ hd) :
    Recorded D d prims logics t := by
  obtain ⟨hp, hl, hs⟩ := same d ne
  exact ⟨by rw [hp]; exact h.prim, by rw [hl]; exact h.logic, by rw [hs]; exact h.once⟩

theorem listed_append {tag : PartTag} (add : t.partitionList = s.partitionList ++ [tag]) (d : Nat) :
    listed t d = listed s d ++ if tag.disk = d then [tag] else [] := by
  simp [listed, add, List.filter_append, List.filter_singleton]

theorem addPrim_sameElse (p : Partition) : SameElse hd s (s.addPrim hd p) := by
  intro d ne
  refine ⟨Function.update_of_ne ne _ _, rfl, ?_⟩
  rw [listed_append (s := s) (t := s.addPrim hd p) rfl]
  exact (congrArg _ (if_neg (Ne.symm ne))).trans (List.append_nil _)

theorem addLogic_sameElse (p : Partition) : SameElse hd s (s.addLogic hd p) := by
  intro d ne
  refine ⟨rfl, Function.update_of_ne ne _ _, ?_⟩
  rw [listed_append (s := s) (t := s.addLogic hd p) rfl]
  exact (congrArg _ (if_neg (Ne.symm ne))).trans (List.append_nil _)

theorem Filled.append {first : Nat} {l : List Extent} {parts : Nat → Partition} (h : Filled D hd first l parts)
    (e : Extent) : Filled D hd first (l ++ [e])
      (Function.update parts l.length ⟨e.startLba, e.secCnt, hd, D.name hd ++ toString (l.length + first)⟩) := by
  intro k hk
  rw [List.length_append, List.length_singleton] at hk
  rcases Nat.lt_succ_iff_lt_or_eq.mp hk with lt | rfl
  · rw [Function.update_of_ne (Nat.ne_of_lt lt), List.getElem_append_left lt]
    exact h k lt
  · rw [Function.update_self]
    simp

theorem Progress.addPrim (h : Progress D hd prims logics s) (room : prims.length < 4) (e : Extent) :
    Progress D hd (prims ++ [e]) logics
      (s.addPrim hd ⟨e.startLba, e.secCnt, hd, D.name hd ++ toString (s.pNo.toNat + 1)⟩) := by
  have next : (s.pNo + 1).toNat = prims.length + 1 := by
    rw [UInt8.toNat_add, h.pNo]
    exact Nat.mod_eq_of_lt (by simp; omega)
  refine ⟨⟨?_, h.logic, ?_⟩, ?_, h.lNo⟩
  · simp only [Scan.addPrim, Function.update_self, h.pNo]
    exact h.prim.append e
  · rw [listed_append (s := s) rfl]
    simp only [PartTag.disk, if_true, h.pNo, List.length_append, List.length_singleton, List.range_succ,
      List.map_append, List.map_singleton]
    exact (h.once.append_right _).trans (by
      rw [List.append_assoc, List.append_assoc]
      exact List.perm_append_comm.append_left _)
  · simp only [Scan.addPrim, next, List.length_append, List.length_singleton]

theorem Progress.addLogic (h : Progress D hd prims logics s) (room : logics.length < 8) (e : Extent) :
    Progress D hd prims (logics ++ [e])
      (s.addLogic hd ⟨e.startLba, e.secCnt, hd, D.name hd ++ toString (s.lNo.toNat + 5)⟩) := by
  have next : (s.lNo + 1).toNat = logics.length + 1 := by
    rw [UInt8.toNat_add, h.lNo]
    exact Nat.mod_eq_of_lt (by simp; omega)
  refine ⟨⟨h.prim, ?_, ?_⟩, h.pNo, ?_⟩
  · simp only [Scan.addLogic, Function.update_self, h.lNo]
    exact h.logic.append e
  · rw [listed_append (s := s) rfl]
    simp only [PartTag.disk, if_true, h.lNo, List.length_append, List.length_singleton, List.range_succ,
      List.map_append, List.map_singleton, ← List.append_assoc]
    exact h.once.append_right _
  · simp only [Scan.addLogic, next, List.length_append, List.length_singleton]

/-- The sectors that are allocated do not matter here. -/
theorem Progress.congr (h : Progress D hd prims logics s) (hp : t.primParts = s.primParts)
    (hl : t.logicParts = s.logicParts) (list : t.partitionList = s.partitionList) (pNo : t.pNo = s.pNo)
    (lNo : t.lNo = s.lNo) : Progress D hd prims logics t := by
  have same : listed t hd = listed s hd := by rw [listed, listed, list]
  exact ⟨⟨by rw [hp]; exact h.prim, by rw [hl]; exact h.logic, by rw [same]; exact h.once⟩,
    by rw [pNo]; exact h.pNo, by rw [lNo]; exact h.lNo⟩

/-- From s the scan has come to t, with this address in ext_lba_base. -/
structure After (D : Drives) (hd : Nat) (base : UInt32) (prims logics : List Extent) (s t : Scan) : Prop where
  progress : Progress D hd prims logics t
  sameElse : SameElse hd s t
  base : t.extLbaBase = base

theorem Progress.after (h : Progress D hd prims logics s) : After D hd s.extLbaBase prims logics s s :=
  ⟨h, .refl hd s, rfl⟩

theorem After.trans {base : UInt32} {prims' logics' : List Extent} {base' : UInt32}
    (h : After D hd base prims logics s t) (k : After D hd base' prims' logics' t u) :
    After D hd base' prims' logics' s u :=
  ⟨k.progress, h.sameElse.trans k.sameElse, k.base⟩

theorem recordPrim_after (h : Progress D hd prims logics s) (room : prims.length + 1 ≤ 3) (p : PartitionTableEntry) :
    Succeeds (recordPrim D hd 0 p)
      (fun _ t => After D hd s.extLbaBase (prims ++ [⟨0 + p.startLba, p.secCnt⟩]) logics s t) s := by
  have no := h.pNo
  have lt : s.pNo.toNat < 4 := by omega
  have added := h.addPrim (by omega) ⟨0 + p.startLba, p.secCnt⟩
  have few : (s.pNo + 1).toNat < 4 := by
    have next : (s.pNo + 1).toNat = (prims ++ [(⟨0 + p.startLba, p.secCnt⟩ : Extent)]).length := added.pNo
    rw [next, List.length_append, List.length_singleton]
    omega
  simp only [Succeeds, recordPrim, wp_bind, wp_get, if_pos lt, wp_set, wp_assert]
  exact ⟨fun _ => ⟨added, addPrim_sameElse _, rfl⟩, fun full => full few⟩

theorem recordLogic_after {lba : UInt32} (h : Progress D hd prims logics s) (room : logics.length + 1 ≤ 8)
    (p : PartitionTableEntry) :
    Succeeds (recordLogic D hd lba p) (fun more t =>
      After D hd s.extLbaBase prims (logics ++ [⟨lba + p.startLba, p.secCnt⟩]) s t ∧
        (more = true ↔ logics.length + 1 < 8)) s := by
  have no := h.lNo
  have lt : s.lNo.toNat < 8 := by omega
  have added := h.addLogic (by omega) ⟨lba + p.startLba, p.secCnt⟩
  have more : s.lNo + 1 < 8 ↔ logics.length + 1 < 8 := by
    have next : (s.lNo + 1).toNat = (logics ++ [(⟨lba + p.startLba, p.secCnt⟩ : Extent)]).length := added.lNo
    rw [List.length_append, List.length_singleton] at next
    rw [← next]
    rfl
  simp only [Succeeds, recordLogic, wp_bind, wp_get, if_pos lt, wp_set, wp_pure]
  exact ⟨⟨added, addLogic_sameElse _, rfl⟩, by rw [decide_eq_true_eq]; exact more⟩

variable {scan : UInt32 → Kern Scan Unit} {bs : Nat} {rest : List PartitionTableEntry} {p : PartitionTableEntry}
  {Q : Unit → Scan → Prop}

/-- An entry of the MBR that is not an extended partition. -/
theorem scanTable_mbr (own : p.fsType ≠ 5) (h : Progress D hd prims logics s)
    (room : (prims ++ described 0 p).length ≤ 3)
    (next : ∀ t, After D hd s.extLbaBase (prims ++ described 0 p) logics s t →
      Succeeds (scanTable D scan hd 0 bs rest) Q t) :
    Succeeds (scanTable D scan hd 0 bs (p :: rest)) Q s := by
  simp only [Succeeds, scanTable, if_neg own, if_true]
  by_cases empty : p.fsType = 0
  · rw [if_neg (not_not.mpr empty)]
    have none : described 0 p = [] := if_pos (.inl empty)
    rw [none, List.append_nil] at next
    exact next s h.after
  · have one : described 0 p = [⟨0 + p.startLba, p.secCnt⟩] := if_neg (not_or.mpr ⟨empty, own⟩)
    rw [one] at next room
    rw [List.length_append, List.length_singleton] at room
    rw [if_pos empty, wp_bind]
    exact wp_post (recordPrim_after h room p) fun _ t ht => next t ht

/-- The entry of an extended boot record for its own partition; at the eighth the scan returns. -/
theorem scanTable_ebr {lba : UInt32} (away : lba ≠ 0) (own : p.fsType ≠ 5) (h : Progress D hd prims logics s)
    (room : (logics ++ described lba p).length ≤ 8)
    (next : ∀ t, After D hd s.extLbaBase prims (logics ++ described lba p) s t →
      Succeeds (scanTable D scan hd lba bs rest) Q t)
    (full : ∀ t, After D hd s.extLbaBase prims (logics ++ described lba p) s t →
      (logics ++ described lba p).length = 8 → Q () t) :
    Succeeds (scanTable D scan hd lba bs (p :: rest)) Q s := by
  simp only [Succeeds, scanTable, if_neg own, if_neg away]
  by_cases empty : p.fsType = 0
  · rw [if_neg (not_not.mpr empty)]
    have none : described lba p = [] := if_pos (.inl empty)
    rw [none, List.append_nil] at next
    exact next s h.after
  · have one : described lba p = [⟨lba + p.startLba, p.secCnt⟩] := if_neg (not_or.mpr ⟨empty, own⟩)
    rw [one] at next room full
    rw [List.length_append, List.length_singleton] at room full
    rw [if_pos empty, wp_bind]
    refine wp_post (recordLogic_after h room p) fun more t ht => ?_
    rw [wp_ite]
    exact ⟨fun _ => next t ht.1, fun no => (wp_pure ()).mpr (full t ht.1 (by have := mt ht.2.mpr no; omega))⟩

theorem scanTable_empty {lba : UInt32} (empty : ∀ q ∈ rest, q.fsType = 0) (h : Progress D hd prims logics s) :
    Succeeds (scanTable D scan hd lba bs rest) (fun _ t => After D hd s.extLbaBase prims logics s t) s := by
  induction rest with
  | nil =>
    simp only [Succeeds, scanTable, freeSector, wp_modify]
    exact ⟨h.congr rfl rfl rfl rfl rfl, .refl hd s, rfl⟩
  | cons q rest ih =>
    have zero := empty q List.mem_cons_self
    simp only [Succeeds, scanTable, zero, if_neg (show ¬ (0 : UInt8) = 5 by decide), ne_eq, not_true_eq_false, if_false]
    exact ih fun r hr => empty r (List.mem_cons_of_mem q hr)

theorem scanTable_extended {lba base : UInt32} (ext : p.fsType = 5) (at_base : s.extLbaBase = base) (set : base ≠ 0)
    (next : Succeeds (scan (p.startLba + base)) (fun _ t => Succeeds (scanTable D scan hd lba bs rest) Q t) s) :
    Succeeds (scanTable D scan hd lba bs (p :: rest)) Q s := by
  rw [Succeeds, scanTable, if_pos ext, wp_bind, scanExtended, wp_bind, wp_get, at_base, if_pos set]
  exact next

theorem scanTable_first {lba : UInt32} (ext : p.fsType = 5) (unset : s.extLbaBase = 0)
    (next : Succeeds (scan p.startLba) (fun _ t => Succeeds (scanTable D scan hd lba bs rest) Q t)
      { s with extLbaBase := p.startLba }) :
    Succeeds (scanTable D scan hd lba bs (p :: rest)) Q s := by
  rw [Succeeds, scanTable, if_pos ext, wp_bind, scanExtended, wp_bind, wp_get, unset,
    if_neg (not_not.mpr rfl), wp_bind, wp_modify]
  exact next

/-- A call with the sector read: the boot sectors that are allocated do not matter here. -/
theorem partitionScan_enter (base : UInt32) {lba : UInt32} {depth : Nat} (ok : lba ≤ maxLba) (h : Progress D hd prims logics s)
    {prims' logics' : List Extent}
    (scans : ∀ bs s', Progress D hd prims logics s' → s'.extLbaBase = s.extLbaBase →
      Succeeds (scanTable D (partitionScan D hd depth) hd lba bs (partitionTable (D.sector hd lba)))
        (fun _ t => After D hd base prims' logics' s' t) s') :
    Succeeds (partitionScan D hd (depth + 1) lba) (fun _ t => After D hd base prims' logics' s t) s := by
  simp only [Succeeds, partitionScan, mallocSector, readSector, wp_bind, wp_get, wp_set, wp_pure, wp_assert]
  refine ⟨fun _ => ?_, fun bad => bad ok⟩
  refine wp_post (scans _ _ (h.congr rfl rfl rfl rfl rfl) rfl) fun _ t ht => ?_
  exact ⟨ht.progress, ht.sameElse, ht.base⟩

/-- The scan of a chain, with a level of nesting for each boot record. -/
theorem partitionScan_chain {ext lba : UInt32} {ebrs : List UInt32} {parts : List Extent}
    (chain : EbrChain (D.sector hd) ext lba ebrs parts) (ext_set : ext ≠ 0) (reach : ∀ e ∈ ebrs, e ≤ maxLba)
    (depth : Nat) (deep : ebrs.length ≤ depth) (h : Progress D hd prims logics s)
    (base : s.extLbaBase = ext) (room : (logics ++ parts).length ≤ 8) :
    Succeeds (partitionScan D hd depth lba) (fun _ t => After D hd ext prims (logics ++ parts) s t) s := by
  induction chain generalizing depth s logics with
  | @last lba p e f g away table own ends f_empty g_empty =>
    obtain ⟨depth, rfl⟩ : ∃ d, depth = d + 1 := ⟨depth - 1, by simp at deep; omega⟩
    refine partitionScan_enter ext (reach lba List.mem_cons_self) h fun bs s' h' same => ?_
    have at_ext : s'.extLbaBase = ext := same.trans base
    rw [table, ← at_ext]
    refine scanTable_ebr away own h' room (fun t ht => ?_) fun t ht _ => ht
    rw [← ht.base]
    exact wp_post (scanTable_empty (by simp [ends, f_empty, g_empty]) ht.progress) fun _ u hu => ht.trans hu
  | @link lba p e f g ebrs parts away table own leads f_empty g_empty next ih =>
    obtain ⟨depth, rfl⟩ : ∃ d, depth = d + 1 := ⟨depth - 1, by simp at deep; omega⟩
    rw [List.length_cons] at deep
    rw [← List.append_assoc] at room ⊢
    have own_room : (logics ++ described lba p).length ≤ 8 := by
      rw [List.length_append] at room
      omega
    refine partitionScan_enter ext (reach lba List.mem_cons_self) h fun bs s' h' same => ?_
    have at_ext : s'.extLbaBase = ext := same.trans base
    rw [table]
    refine scanTable_ebr away own h' own_room (fun t ht => ?_) fun t ht full => ?_
    · have ext_t : t.extLbaBase = ext := ht.base.trans at_ext
      have deeper := ih (fun r hr => reach r (List.mem_cons_of_mem lba hr)) depth (by omega) ht.progress ext_t room
      refine scanTable_extended leads ext_t ext_set (wp_post deeper fun _ u hu => ?_)
      rw [← hu.base]
      exact wp_post (scanTable_empty (by simp [f_empty, g_empty]) hu.progress) fun _ v hv => (ht.trans hu).trans hv
    · have none : parts = [] := by
        rw [List.length_append, full] at room
        exact List.length_eq_zero_iff.mp (by omega)
      rw [none, List.append_nil, ← at_ext]
      exact ht

theorem scanTable_flat (flat : extended rest = []) (h : Progress D hd prims logics s)
    (room : (prims ++ rest.flatMap (described 0)).length ≤ 3) :
    Succeeds (scanTable D scan hd 0 bs rest)
      (fun _ t => After D hd s.extLbaBase (prims ++ rest.flatMap (described 0)) logics s t) s := by
  induction rest generalizing s prims with
  | nil =>
    rw [List.flatMap_nil, List.append_nil]
    exact scanTable_empty (fun _ hq => nomatch hq) h
  | cons q rest ih =>
    have own : q.fsType ≠ 5 := by
      intro five
      simp [extended, five] at flat
    have later : extended rest = [] := by simpa [extended, own] using flat
    rw [List.flatMap_cons, ← List.append_assoc] at room ⊢
    refine scanTable_mbr own h (by rw [List.length_append] at room; omega) fun t ht => ?_
    rw [← ht.base]
    exact wp_post (ih later ht.progress room) fun _ u hu => ht.trans hu

theorem scanTable_chain {p : PartitionTableEntry} {ebrs : List UInt32} {parts : List Extent}
    (one : extended rest = [p]) (chain : EbrChain (D.sector hd) p.startLba p.startLba ebrs parts)
    (reach : ∀ e ∈ ebrs, e ≤ maxLba) (few : parts.length ≤ 8) {depth : Nat} (deep : ebrs.length ≤ depth)
    (h : Progress D hd prims [] s) (base : s.extLbaBase = 0)
    (room : (prims ++ rest.flatMap (described 0)).length ≤ 3) :
    Succeeds (scanTable D (partitionScan D hd depth) hd 0 bs rest)
      (fun _ t => After D hd p.startLba (prims ++ rest.flatMap (described 0)) parts s t) s := by
  induction rest generalizing s prims with
  | nil => cases one
  | cons q rest ih =>
    rw [List.flatMap_cons, ← List.append_assoc] at room ⊢
    by_cases own : q.fsType = 5
    · have head : q = p ∧ extended rest = [] := by simpa [extended, own] using one
      obtain ⟨rfl, flat⟩ := head
      have none : described 0 q = [] := if_pos (.inr own)
      rw [none, List.append_nil] at room ⊢
      have set : q.startLba ≠ 0 := by cases chain <;> assumption
      have begun : Progress D hd prims [] { s with extLbaBase := q.startLba } := h.congr rfl rfl rfl rfl rfl
      have logical := partitionScan_chain chain set reach depth deep begun rfl (by simpa using few)
      refine scanTable_first own base (wp_post logical fun _ t ht => ?_)
      rw [List.nil_append] at ht
      rw [← ht.base]
      exact wp_post (scanTable_flat flat ht.progress room) fun _ u hu => ⟨hu.progress, ht.sameElse.trans hu.sameElse, hu.base⟩
    · have later : extended rest = [p] := by simpa [extended, own] using one
      refine scanTable_mbr own h (by rw [List.length_append] at room; omega) fun t ht => ?_
      exact wp_post (ih later ht.progress (ht.base.trans base) room) fun _ u hu => ht.trans hu

/-- The scan of one disk: its own extended partition is found when ext_lba_base is still 0. -/
theorem partitionScan_disk {ebrs : List UInt32} {logical : List Extent} (wf : WellFormed (D.sector hd) ebrs logical)
    (primary : (primaries (D.sector hd)).length ≤ 3) (reach : ∀ e ∈ ebrs, e ≤ maxLba) {depth : Nat}
    (deep : ebrs.length < depth) (h : Progress D hd [] [] s) (base : ebrs = [] ∨ s.extLbaBase = 0) :
    Succeeds (partitionScan D hd depth 0) (fun _ t => Recorded D hd (primaries (D.sector hd)) logical t ∧
      SameElse hd s t ∧ (ebrs = [] → t.extLbaBase = s.extLbaBase)) s := by
  obtain ⟨depth, rfl⟩ : ∃ d, depth = d + 1 := ⟨depth - 1, by omega⟩
  obtain ⟨flat, rfl, rfl⟩ | ⟨p, one, chain⟩ := wf.chain
  · refine wp_post (partitionScan_enter s.extLbaBase (by decide) h fun bs s' h' same => ?_) fun _ t ht =>
      ⟨ht.progress.toRecorded, ht.sameElse, fun _ => ht.base⟩
    rw [← same]
    exact scanTable_flat flat h' primary
  · have some : ebrs ≠ [] := by cases chain <;> exact List.cons_ne_nil _ _
    have zero := base.resolve_left some
    refine wp_post (partitionScan_enter p.startLba (by decide) h fun bs s' h' same => ?_) fun _ t ht =>
      ⟨ht.progress.toRecorded, ht.sameElse, fun none => absurd none some⟩
    exact scanTable_chain one chain reach wf.few (by omega) h' (same.trans zero) primary

end

/-- The number of the disk that ide_init scans on channel c. -/
def scanned (c : Nat) : Nat := 2 * c + 1

/-- ide_init is through with the channels below c: ext_lba_base stays at 0 as long as no disk has had
an extended partition. -/
structure Discovered (D : Drives) (ebrs : Nat → List UInt32) (logical : Nat → List Extent) (c : Nat) (t : Scan) :
    Prop where
  pNo : t.pNo = 0
  lNo : t.lNo = 0
  recorded : ∀ d < c, Recorded D (scanned d) (primaries (D.sector (scanned d))) (logical d) t
  fresh : ∀ d, c ≤ d → listed t (scanned d) = []
  base : t.extLbaBase = 0 ∨ ∃ d < c, ebrs d ≠ []

theorem scanChannel_discovers {D : Drives} {ebrs : Nat → List UInt32} {logical : Nat → List Extent} {c depth : Nat}
    {s : Scan} (h : Discovered D ebrs logical c s) (wf : WellFormed (D.sector (scanned c)) (ebrs c) (logical c))
    (primary : (primaries (D.sector (scanned c))).length ≤ 3) (reach : ∀ e ∈ ebrs c, e ≤ maxLba)
    (deep : (ebrs c).length < depth) (single : ∀ d < c, ebrs d ≠ [] → ebrs c = []) :
    Succeeds (scanChannel D depth c) (fun _ t => Discovered D ebrs logical (c + 1) t) s := by
  have start : Progress D (scanned c) [] [] { s with pNo := 0, lNo := 0 } := by
    refine ⟨⟨fun _ hk => absurd hk (Nat.not_lt_zero _), fun _ hk => absurd hk (Nat.not_lt_zero _), ?_⟩, rfl, rfl⟩
    show (listed s (scanned c)).Perm []
    rw [h.fresh c (Nat.le_refl c)]
  have unset : ebrs c = [] ∨ s.extLbaBase = 0 := by
    rcases h.base with zero | ⟨d, hd, some⟩
    · exact .inr zero
    · exact .inl (single d hd some)
  have scan := partitionScan_disk wf primary reach deep start unset
  simp only [Succeeds, scanChannel, forRange, pure_bind, wp_bind, wp_modify, if_neg (show ¬ 0 ≠ 0 by decide),
    if_pos (show 1 ≠ 0 by decide)]
  refine wp_post scan fun _ t ht => ?_
  obtain ⟨own, same, kept⟩ := ht
  have others (d : Nat) (ne : scanned d ≠ scanned c) := same (scanned d) ne
  constructor
  case pNo => rfl
  case lNo => rfl
  case recorded =>
    intro d hd
    rcases Nat.lt_succ_iff_lt_or_eq.mp hd with lt | rfl
    · exact (h.recorded d lt).congr same (by unfold scanned; omega)
    · exact ⟨own.prim, own.logic, own.once⟩
  case fresh =>
    intro d hd
    exact (others d (by unfold scanned; omega)).2.2.trans (h.fresh d (Nat.le_of_succ_le hd))
  case base =>
    by_cases none : ebrs c = []
    · rcases h.base with zero | ⟨d, lt, some⟩
      · exact .inl ((kept none).trans zero)
      · exact .inr ⟨d, Nat.lt_succ_of_lt lt, some⟩
    · exact .inr ⟨c, Nat.lt_succ_self c, none⟩

/-- ide_init records what the disks hold, if each has at most three primary partitions, no boot
record beyond the limit of ide_read, and at most one of the disks has an extended partition. -/
theorem ideInit_discovers (D : Drives) (hdCnt : UInt8) (s : Scan) (start : s.extLbaBase = 0 ∧ s.pNo = 0 ∧ s.lNo = 0)
    (disks : 0 < hdCnt ∧ hdCnt ≤ 4) (ebrs : Nat → List UInt32) (logical : Nat → List Extent)
    (wf : ∀ c < channelCnt hdCnt, WellFormed (D.sector (scanned c)) (ebrs c) (logical c))
    (primary : ∀ c < channelCnt hdCnt, (primaries (D.sector (scanned c))).length ≤ 3)
    (reach : ∀ c < channelCnt hdCnt, ∀ e ∈ ebrs c, e ≤ maxLba)
    (single : ∀ c < channelCnt hdCnt, ∀ d < c, ebrs d ≠ [] → ebrs c = []) :
    ∃ depth, Succeeds (ideInit D depth hdCnt) (fun _ t => ∀ c < channelCnt hdCnt,
      Recorded D (scanned c) (primaries (D.sector (scanned c))) (logical c) t) s := by
  obtain ⟨base, pNo, lNo⟩ := start
  have channels : channelCnt hdCnt ≤ 2 := by
    have few : hdCnt.toNat ≤ 4 := disks.2
    unfold channelCnt
    omega
  refine ⟨(ebrs 0).length + (ebrs 1).length + 1, ?_⟩
  simp only [Succeeds, ideInit, wp_bind, wp_assert, wp_modify]
  refine ⟨fun _ => ?_, fun no => absurd disks.1 no⟩
  refine wp_post (wp_forRange (Discovered D ebrs logical) ?_ fun c t hc ht => ?_) fun _ t ht => ht.recorded
  · exact ⟨pNo, lNo, fun d hd => absurd hd (Nat.not_lt_zero d), fun _ _ => rfl, .inl base⟩
  · have two : c < 2 := Nat.lt_of_lt_of_le hc channels
    have deep : (ebrs c).length < (ebrs 0).length + (ebrs 1).length + 1 := by
      obtain rfl | rfl : c = 0 ∨ c = 1 := by omega
      · omega
      · omega
    rw [if_pos two]
    exact scanChannel_discovers ht (wf c hc) (primary c hc) (reach c hc) deep (single c hc)

theorem scanChannel_mono {D : Drives} {depth more : Nat} (le : depth ≤ more) (c : Nat) (Q : Unit → Scan → Prop)
    (s : Scan) (h : Succeeds (scanChannel D depth c) Q s) : Succeeds (scanChannel D more c) Q s := by
  simp only [Succeeds, scanChannel, forRange, pure_bind, wp_bind, wp_modify, if_neg (show ¬ 0 ≠ 0 by decide),
    if_pos (show 1 ≠ 0 by decide)] at h ⊢
  exact partitionScan_mono le _ _ _ h

/-- What ide_init does does not depend on how deep the calls may be nested, once that is enough. -/
theorem ideInit_mono {D : Drives} {depth more : Nat} (le : depth ≤ more) (hdCnt : UInt8) (Q : Unit → Scan → Prop)
    (s : Scan) (h : Succeeds (ideInit D depth hdCnt) Q s) : Succeeds (ideInit D more hdCnt) Q s := by
  have loop (n : Nat) (Q : Unit → Scan → Prop) (s : Scan)
      (h : Succeeds (forRange n fun c => if c < 2 then scanChannel D depth c else throw .undefined) Q s) :
      Succeeds (forRange n fun c => if c < 2 then scanChannel D more c else throw .undefined) Q s := by
    induction n generalizing Q with
    | zero => exact h
    | succ n ih =>
      rw [Succeeds, forRange, wp_bind] at h ⊢
      refine wp_post (ih _ h) fun _ t ht => ?_
      rw [wp_ite] at ht ⊢
      exact ⟨fun two => scanChannel_mono le n Q t (ht.1 two), ht.2⟩
  simp only [Succeeds, ideInit, wp_bind, wp_assert, wp_modify] at h ⊢
  exact ⟨fun pos => loop _ _ _ (h.1 pos), h.2⟩

/-- Of the scanned disks the first has one primary and two logical partitions, the second two primary ones. -/
def chainAndPrimaries : Drives where
  sector hd lba :=
    if hd = 1 then primaryAndChain.sector 1 lba
    else if lba = 0 then bootSector [⟨0x83, 63, 1000⟩, ⟨0x83, 2000, 500⟩]
    else bootSector []
  name _ := "sdb"

def chainEbrs : Nat → List UInt32
  | 0 => [2000, 5000]
  | _ => []

def chainLogical : Nat → List Extent
  | 0 => [⟨2063, 1000⟩, ⟨5063, 900⟩]
  | _ => []

theorem chain_wellFormed : WellFormed (chainAndPrimaries.sector 1) [2000, 5000] [⟨2063, 1000⟩, ⟨5063, 900⟩] := by
  refine ⟨by decide, .inr ⟨⟨5, 2000, 9000⟩, by decide +kernel, ?_⟩⟩
  refine .link (p := ⟨0x83, 63, 1000⟩) (e := ⟨5, 3000, 1000⟩) (f := ⟨0, 0, 0⟩) (g := ⟨0, 0, 0⟩)
    (by decide) (by decide +kernel) (by decide) rfl rfl rfl ?_
  exact .last (p := ⟨0x83, 63, 900⟩) (e := ⟨0, 0, 0⟩) (f := ⟨0, 0, 0⟩) (g := ⟨0, 0, 0⟩)
    (by decide) (by decide +kernel) (by decide) rfl rfl rfl

/-- With four disks ide_init records the partitions of both that are scanned. -/
theorem ideInit_discovers_chain : ∃ depth, Succeeds (ideInit chainAndPrimaries depth 4)
    (fun _ t => Recorded chainAndPrimaries 1 [⟨63, 1000⟩] [⟨2063, 1000⟩, ⟨5063, 900⟩] t ∧
      Recorded chainAndPrimaries 3 [⟨63, 1000⟩, ⟨2000, 500⟩] [] t) scanStart := by
  have cases (c : Nat) (hc : c < channelCnt 4) : c = 0 ∨ c = 1 := by
    have two : channelCnt 4 = 2 := rfl
    omega
  obtain ⟨depth, found⟩ := ideInit_discovers chainAndPrimaries 4 scanStart ⟨rfl, rfl, rfl⟩ (by decide) chainEbrs
    chainLogical (fun c hc => by
      rcases cases c hc with rfl | rfl
      · exact chain_wellFormed
      · exact ⟨by decide, .inl ⟨by decide +kernel, rfl, rfl⟩⟩) (fun c hc => by
      rcases cases c hc with rfl | rfl <;> decide +kernel) (fun c hc => by
      rcases cases c hc with rfl | rfl <;> simp [chainEbrs, maxLba]) fun c hc d hd => by
      rcases cases c hc with rfl | rfl
      · exact absurd hd (Nat.not_lt_zero d)
      · exact fun _ => rfl
  refine ⟨depth, wp_post found fun _ t recorded => ⟨?_, ?_⟩⟩
  · have primary : primaries (chainAndPrimaries.sector 1) = [⟨63, 1000⟩] := by decide +kernel
    exact primary ▸ recorded 0 (by decide)
  · have primary : primaries (chainAndPrimaries.sector 3) = [⟨63, 1000⟩, ⟨2000, 500⟩] := by decide +kernel
    exact primary ▸ recorded 1 (by decide)

/-- On each of the two scanned disks an extended partition with one logical partition. -/
def twoExtended : Drives where
  sector hd lba :=
    let ext := if hd = 1 then 2000 else 5000
    if lba = 0 then bootSector [⟨5, ext, 9000⟩] else if lba = ext then bootSector [⟨0x83, 63, 1000⟩] else bootSector []
  name _ := "sdb"

/-- The address 2000 of the first extended partition is added to that of the second, and the boot
record of the second is looked for in the sector 7000. -/
theorem ideInit_second_extended :
    WellFormed (twoExtended.sector (scanned 0)) [2000] [⟨2063, 1000⟩] ∧
    WellFormed (twoExtended.sector (scanned 1)) [5000] [⟨5063, 1000⟩] ∧
    ¬ ∃ depth, Succeeds (ideInit twoExtended depth 4)
      (fun _ t => Recorded twoExtended (scanned 0) (primaries (twoExtended.sector (scanned 0))) [⟨2063, 1000⟩] t ∧
        Recorded twoExtended (scanned 1) (primaries (twoExtended.sector (scanned 1))) [⟨5063, 1000⟩] t) scanStart := by
  refine ⟨⟨by decide, .inr ⟨⟨5, 2000, 9000⟩, by decide +kernel, ?_⟩⟩,
    ⟨by decide, .inr ⟨⟨5, 5000, 9000⟩, by decide +kernel, ?_⟩⟩, ?_⟩
  · exact .last (p := ⟨0x83, 63, 1000⟩) (e := ⟨0, 0, 0⟩) (f := ⟨0, 0, 0⟩) (g := ⟨0, 0, 0⟩)
      (by decide) (by decide +kernel) (by decide) rfl rfl rfl
  · exact .last (p := ⟨0x83, 63, 1000⟩) (e := ⟨0, 0, 0⟩) (f := ⟨0, 0, 0⟩) (g := ⟨0, 0, 0⟩)
      (by decide) (by decide +kernel) (by decide) rfl rfl rfl
  · rintro ⟨depth, h⟩
    have run : Succeeds (ideInit twoExtended 3 4) (fun _ t => t.partitionList = [.logic (scanned 0) 0]) scanStart := by
      decide +kernel
    have both := wp_and (ideInit_mono (Nat.le_max_left depth 3) _ _ _ h)
      (ideInit_mono (Nat.le_max_right depth 3) _ _ _ run)
    obtain ⟨_, t, _, ⟨_, second⟩, list⟩ := succeeds_iff.mp both
    have none : listed t (scanned 1) = [] := by
      rw [listed, list]
      rfl
    have len := second.once.length_eq
    rw [none] at len
    simp at len

end Zhenxiang.Device
