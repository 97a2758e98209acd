import Zhenxiang.Device.IdePorts

/-! Transfers of any length. A turn of either loop moves the sectors of one command; their
number goes through 8 bits twice, for the register and for the size of the transfer, and a
count of 256 is 0 in both. What a drive reads is the newest write to each sector. -/
namespace Zhenxiang.Device
open Lib Kernel

variable {s t : IdeIo} {hd : Hd} {channel : Bool}

@[simp] theorem setChannel_channel (c : Controller) : (s.setChannel channel c).channel channel = c :=
  Function.update_self ..

theorem setChannel_other {other : Bool} (c : Controller) (ne : other ≠ channel) :
    (s.setChannel channel c).channel other = s.channel other := Function.update_of_ne ne ..

@[simp] theorem setChannel_setChannel (c d : Controller) :
    (s.setChannel channel c).setChannel channel d = s.setChannel channel d := by
  simp only [IdeIo.setChannel, Function.update_idem]

@[simp] theorem setChannel_self : s.setChannel channel (s.channel channel) = s := by
  simp only [IdeIo.setChannel, Function.update_eq_self]

@[simp] theorem setChannel_ram (c : Controller) : (s.setChannel channel c).ram = s.ram := rfl

@[simp] theorem setChannel_expecting (c : Controller) :
    (s.setChannel channel c).expectingIntr = s.expectingIntr := rfl

@[simp] theorem expect_channel (value : Bool) : (s.expect channel value).channel = s.channel := rfl

/-! The words of a command. -/

theorem blit_succ (dst src : Buf) (o k : Nat) :
    Function.update (Function.update (blit dst o (2 * k) src) (o + 2 * k) (src (2 * k))) (o + 2 * k + 1)
      (src (2 * k + 1)) = blit dst o (2 * (k + 1)) src := by
  funext x
  simp only [Function.update_apply, blit]
  by_cases last : x = o + 2 * k + 1
  · rw [if_pos last, if_pos (by omega), last, show o + 2 * k + 1 - o = 2 * k + 1 by omega]
  · rw [if_neg last]
    by_cases low : x = o + 2 * k
    · rw [if_pos low, if_pos (by omega), low, Nat.add_sub_cancel_left]
    · rw [if_neg low]
      by_cases old : o ≤ x ∧ x < o + 2 * k
      · rw [if_pos old, if_pos (by omega)]
      · rw [if_neg old, if_neg (by omega)]

theorem blit_zero (dst src : Buf) (o : Nat) : blit dst o 0 src = dst := by
  funext k
  exact blit_of_not_mem (by omega)

/-- The controller when k words of a read have gone through the port. -/
def Controller.taken (c : Controller) (k : Nat) : Controller := { c with pos := c.pos + 2 * k, left := c.left - k }

/-- The bytes that the command moves, on the drive it was given to. -/
def Controller.sectorBytes (c : Controller) : Buf := slice (c.disk c.slave) c.pos

theorem take_taken {c : Controller} {k : Nat} (more : k < c.left) (reading : c.writing = false) :
    (c.taken k).take = ((c.sectorBytes (2 * k), c.sectorBytes (2 * k + 1)), c.taken (k + 1)) := by
  have here : 0 < (c.taken k).left ∧ (c.taken k).writing = false := ⟨Nat.sub_pos_of_lt more, reading⟩
  rw [Controller.take, if_pos here]
  rfl

theorem wp_inWord {addr : Nat} {Q : Unit → IdeIo → Prop} {E : Fault → Prop} :
    wp (inWord channel addr) Q E s ↔ Q () { s.setChannel channel (s.channel channel).take.2 with
      ram := Function.update (Function.update s.ram addr (s.channel channel).take.1.1) (addr + 1)
        (s.channel channel).take.1.2 } := by
  rw [inWord, wp_bind, wp_get]
  exact wp_modify _

theorem insw_spec {addr n : Nat} (left : n ≤ (s.channel channel).left) (reading : (s.channel channel).writing = false) :
    Succeeds (insw channel addr n) (fun _ t => t = { s.setChannel channel ((s.channel channel).taken n) with
      ram := blit s.ram addr (2 * n) (s.channel channel).sectorBytes }) s := by
  apply wp_forRange fun k (t : IdeIo) => t = { s.setChannel channel ((s.channel channel).taken k) with
    ram := blit s.ram addr (2 * k) (s.channel channel).sectorBytes }
  · rw [Nat.mul_zero, blit_zero]
    exact setChannel_self.symm
  · rintro k t hk rfl
    have here := @setChannel_channel s channel ((s.channel channel).taken k)
    rw [wp_inWord]
    dsimp only [IdeIo.setChannel] at here ⊢
    rw [here, take_taken (Nat.lt_of_lt_of_le hk left) reading, Function.update_idem]
    dsimp only
    rw [blit_succ]

/-- The controller when k words of a write have gone through the port. -/
def Controller.given (c : Controller) (k : Nat) (src : Buf) : Controller :=
  { c with
    disk := Function.update c.disk c.slave (blit (c.disk c.slave) c.pos (2 * k) src)
    pos := c.pos + 2 * k
    left := c.left - k }

theorem give_given {c : Controller} {k : Nat} {src : Buf} (more : k < c.left) (writing : c.writing = true) :
    (c.given k src).give (src (2 * k)) (src (2 * k + 1)) = c.given (k + 1) src := by
  have here : 0 < (c.given k src).left ∧ (c.given k src).writing = true := ⟨Nat.sub_pos_of_lt more, writing⟩
  rw [Controller.give, if_pos here]
  simp only [Controller.given, Function.update_self, Function.update_idem, blit_succ]
  rfl

theorem outsw_spec {addr n : Nat} (left : n ≤ (s.channel channel).left) (writing : (s.channel channel).writing = true) :
    Succeeds (outsw channel addr n)
      (fun _ t => t = s.setChannel channel ((s.channel channel).given n (slice s.ram addr))) s := by
  apply wp_forRange fun k (t : IdeIo) => t = s.setChannel channel ((s.channel channel).given k (slice s.ram addr))
  · have whole : (s.channel channel).given 0 (slice s.ram addr) = s.channel channel := by
      rw [Controller.given, Nat.mul_zero, blit_zero, Function.update_eq_self]
      rfl
    rw [whole, setChannel_self]
  · rintro k t hk rfl
    have next := @give_given _ k (slice s.ram addr) (Nat.lt_of_lt_of_le hk left) writing
    refine (wp_modify _).2 ?_
    rw [setChannel_setChannel, setChannel_channel, setChannel_ram, ← next]
    rfl

/-! A command. -/

def Hd.slave (hd : Hd) : Bool := hd.devNo = 1

/-- The registers after select_sector. -/
def Controller.addressed (c : Controller) (hd : Hd) (lba : UInt32) (secCnt : UInt8) : Controller :=
  { c with
    sectCnt := secCnt
    lbaL := lba.toUInt8
    lbaM := (lba >>> 8).toUInt8
    lbaH := (lba >>> 16).toUInt8
    dev := bitDevMbs ||| bitDevLba ||| (if hd.devNo = 1 then bitDevDev else 0) ||| (lba >>> 24).toUInt8 }

theorem wp_outb {reg : Reg} {data : UInt8} {Q : Unit → IdeIo → Prop} {E : Fault → Prop} :
    wp (outb channel reg data) Q E s ↔ Q () (s.setChannel channel ((s.channel channel).put data reg)) := wp_modify _

theorem wp_selectSector {lba : UInt32} {secCnt : UInt8} {Q : Unit → IdeIo → Prop} {E : Fault → Prop}
    (low : lba ≤ maxLba) (h : Q () (s.setChannel hd.myChannel ((s.channel hd.myChannel).addressed hd lba secCnt))) :
    wp (selectSector hd lba secCnt) Q E s := by
  rw [selectSector, wp_bind, wp_assert]
  refine ⟨fun _ => ?_, fun no => (no low).elim⟩
  iterate 4 rw [wp_bind, wp_outb]
  rw [wp_outb]
  simp only [setChannel_channel, setChannel_setChannel]
  exact h

/-- The bits of the address that share a register with the drive are 0 on a disk of this size. -/
theorem maxLba_shift {lba : UInt32} (low : lba ≤ maxLba) : (lba >>> 24).toUInt8 = 0 := by
  have small : lba.toNat ≤ 163839 := low
  apply UInt8.toNat_inj.1
  simp [UInt32.toNat_shiftRight, Nat.shiftRight_eq_div_pow]
  omega

theorem addressed_lba {c : Controller} {lba : UInt32} {secCnt : UInt8} (low : lba ≤ maxLba) :
    (c.addressed hd lba secCnt).lba = lba.toNat := by
  have small : lba.toNat ≤ 163839 := low
  have top : (bitDevMbs ||| bitDevLba ||| (if hd.devNo = 1 then bitDevDev else 0) ||| 0) &&& 0xf = 0 := by
    split <;> decide
  rw [Controller.lba, Controller.addressed]
  dsimp only
  rw [maxLba_shift low, top]
  simp [UInt32.toNat_shiftRight, Nat.shiftRight_eq_div_pow]
  omega

/-- How many sectors a count of 8 bits stands for. -/
def sectorsOf (secCnt : UInt8) : Nat := if secCnt = 0 then 256 else secCnt.toNat

theorem sizeInWords_eq (secCnt : UInt8) : sizeInWords secCnt = 256 * sectorsOf secCnt := by
  unfold sizeInWords sectorsOf
  split
  · rfl
  · have small := secCnt.toNat_lt
    simp [UInt32.toNat_div, UInt32.toNat_mul]
    omega

theorem secsOp_spec {secCnt secsDone : UInt32} (more : secsDone < secCnt) (room : secCnt.toNat ≤ 2 ^ 31) :
    0 < (secsOp secCnt secsDone).toNat ∧ (secsOp secCnt secsDone).toNat ≤ secCnt.toNat - secsDone.toNat ∧
      sectorsOf (secsOp secCnt secsDone).toUInt8 = (secsOp secCnt secsDone).toNat := by
  have less : secsDone.toNat < secCnt.toNat := more
  have sum : (secsDone + 256).toNat = secsDone.toNat + 256 := by
    rw [UInt32.toNat_add, show (256 : UInt32).toNat = 256 from rfl]
    exact Nat.mod_eq_of_lt (by omega)
  by_cases whole : secsDone + 256 ≤ secCnt
  · have fits : (secsDone + 256).toNat ≤ secCnt.toNat := whole
    rw [secsOp, if_pos whole]
    refine ⟨by decide, ?_, by decide⟩
    have op : (256 : UInt32).toNat = 256 := rfl
    omega
  · have last : ¬ (secsDone + 256).toNat ≤ secCnt.toNat := whole
    have rest : (secCnt - secsDone).toNat = secCnt.toNat - secsDone.toNat :=
      UInt32.toNat_sub_of_le _ _ (Nat.le_of_lt less)
    rw [secsOp, if_neg whole]
    refine ⟨by omega, by omega, ?_⟩
    have short : (secCnt - secsDone).toUInt8.toNat = (secCnt - secsDone).toNat := by
      rw [UInt32.toNat_toUInt8]
      exact Nat.mod_eq_of_lt (by omega)
    have some_left : (secCnt - secsDone).toUInt8 ≠ 0 := by
      intro zero
      rw [zero] at short
      have none : (0 : UInt8).toNat = 0 := rfl
      omega
    rw [sectorsOf, if_neg some_left, short]

/-- The command of one turn: the sectors of the drive hd from lba on. -/
def Controller.commanded (c : Controller) (hd : Hd) (lba : UInt32) (secCnt : UInt8) (writing : Bool) : Controller :=
  { c.addressed hd lba secCnt with
    issued := c.issued + 1
    busy := c.delay c.issued
    writing := writing
    slave := hd.slave
    pos := 512 * lba.toNat
    left := 256 * sectorsOf secCnt }

theorem command_addressed {c : Controller} {lba : UInt32} {secCnt : UInt8} (low : lba ≤ maxLba) (writing : Bool) :
    (c.addressed hd lba secCnt).command (if writing then cmdWriteSector else cmdReadSector) =
      c.commanded hd lba secCnt writing := by
  have mode : (c.addressed hd lba secCnt).dev &&& bitDevLba ≠ 0 := by
    rw [Controller.addressed]
    dsimp only
    rw [maxLba_shift low]
    split <;> decide
  have drive : decide ((c.addressed hd lba secCnt).dev &&& bitDevDev ≠ 0) = hd.slave := by
    rw [Controller.addressed, Hd.slave]
    dsimp only
    rw [maxLba_shift low]
    by_cases one : hd.devNo = 1
    · rw [if_pos one, decide_eq_true one]
      exact decide_eq_true (by decide : (bitDevMbs ||| bitDevLba ||| bitDevDev ||| 0) &&& bitDevDev ≠ 0)
    · rw [if_neg one, decide_eq_false one]
      exact decide_eq_false (by decide : ¬ (bitDevMbs ||| bitDevLba ||| 0 ||| 0) &&& bitDevDev ≠ 0)
  rw [Controller.command, if_pos ⟨mode, by cases writing <;> decide⟩, drive, addressed_lba low]
  cases writing <;> rfl

theorem wp_inStatus {Q : UInt8 → IdeIo → Prop} {E : Fault → Prop} :
    wp (inStatus channel) Q E s ↔ Q (s.channel channel).status.1 (s.setChannel channel (s.channel channel).status.2) := by
  rw [inStatus, wp_bind, wp_get, wp_bind, wp_modify]
  exact wp_pure _

theorem busyWaitFrom_spec {fuel : Nat} {before : UInt16} (wait : (s.channel channel).busy + 1 < before.toNat)
    (enough : (s.channel channel).busy < fuel) (left : 0 < (s.channel channel).left) :
    Succeeds (busyWaitFrom channel fuel before)
      (fun ready t => ready = true ∧ t = s.setChannel channel { s.channel channel with busy := 0 }) s := by
  induction fuel generalizing s before with
  | zero => exact (Nat.not_lt_zero _ enough).elim
  | succ fuel ih =>
    have one : 1 ≤ before.toNat := by omega
    have less : (before - 1).toNat = before.toNat - 1 := UInt16.toNat_sub_of_le _ _ one
    have more : ¬ before - 1 = 0 := by
      intro zero
      rw [zero] at less
      have none : (0 : UInt16).toNat = 0 := rfl
      omega
    rw [busyWaitFrom]
    dsimp only
    rw [if_neg more, Succeeds, wp_bind, wp_inStatus]
    by_cases busy : 0 < (s.channel channel).busy
    · have status : (s.channel channel).status = (bitStatBsy, { s.channel channel with busy := (s.channel channel).busy - 1 }) :=
        if_pos busy
      have set : ¬ bitStatBsy &&& bitStatBsy = 0 := by decide
      rw [status, if_neg set]
      have next : _ → _ → _ → Succeeds (busyWaitFrom channel fuel (before - 1)) _ _ :=
        ih (s := s.setChannel channel { s.channel channel with busy := (s.channel channel).busy - 1 })
      rw [setChannel_channel, setChannel_setChannel] at next
      exact next (by dsimp only; omega) (by dsimp only; omega) left
    · have status : (s.channel channel).status = (bitStatDrdy ||| bitStatDrq, s.channel channel) := by
        rw [Controller.status, if_neg busy, if_pos left]
      have idle : { s.channel channel with busy := 0 } = s.channel channel := by
        rw [← Nat.eq_zero_of_not_pos busy]
      have clear : (bitStatDrdy ||| bitStatDrq) &&& bitStatBsy = 0 := by decide
      have ready : (bitStatDrdy ||| bitStatDrq) &&& bitStatDrq ≠ 0 := by decide
      rw [status, setChannel_self, if_pos clear, wp_bind, wp_inStatus, status, setChannel_self, idle, setChannel_self]
      exact (wp_pure _).2 ⟨decide_eq_true ready, rfl⟩

/-! The turns of the two loops. -/

/-- The bytes on the drive hd. -/
def IdeIo.drive (s : IdeIo) (hd : Hd) : Buf := (s.channel hd.myChannel).disk hd.slave

structure HasRead (s t : IdeIo) (hd : Hd) (lba addr n : Nat) : Prop where
  ram : t.ram = blit s.ram addr (512 * n) (slice (s.drive hd) (512 * lba))
  disk : ∀ c, (t.channel c).disk = (s.channel c).disk
  delay : ∀ c, (t.channel c).delay = (s.channel c).delay

structure HasWritten (s t : IdeIo) (hd : Hd) (lba addr n : Nat) : Prop where
  ram : t.ram = s.ram
  disk : (t.channel hd.myChannel).disk = Function.update (s.channel hd.myChannel).disk hd.slave
    (blit (s.drive hd) (512 * lba) (512 * n) (slice s.ram addr))
  others : ∀ c, c ≠ hd.myChannel → (t.channel c).disk = (s.channel c).disk
  delay : ∀ c, (t.channel c).delay = (s.channel c).delay

/-- The controllers answer before busy_wait gives up. -/
def Prompt (s : IdeIo) : Prop := ∀ c n, (s.channel c).delay n < 29999

theorem wp_cmdOut {cmd : UInt8} {Q : Unit → IdeIo → Prop} {E : Fault → Prop} :
    wp (cmdOut channel cmd) Q E s ↔
      Q () ((s.expect channel true).setChannel channel ((s.channel channel).command cmd)) := by
  rw [cmdOut, wp_bind, wp_modify, wp_outb]
  rfl

theorem wp_awaitDiskDone {Q : Unit → IdeIo → Prop} {E : Fault → Prop} (expected : s.expectingIntr channel = true)
    (h : Q () (s.expect channel false)) : wp (awaitDiskDone channel) Q E s := by
  rw [awaitDiskDone, wp_bind, wp_get, if_pos expected]
  exact (wp_modify _).2 h

theorem busyWait_spec (wait : (s.channel hd.myChannel).busy < 29999) (left : 0 < (s.channel hd.myChannel).left) :
    Succeeds (busyWait hd) (fun ready t => ready = true ∧
      t = s.setChannel hd.myChannel { s.channel hd.myChannel with busy := 0 }) s := by
  have limit : (30 * 1000 : UInt16).toNat = 30000 := rfl
  exact busyWaitFrom_spec (by omega) (by omega) left

theorem sectorsOf_pos (secCnt : UInt8) : 0 < sectorsOf secCnt := by
  unfold sectorsOf
  split
  · decide
  · next some_left => exact Nat.pos_of_ne_zero fun zero => some_left (UInt8.toNat_inj.1 zero)

/-- The registers are written and the command is out. -/
theorem wp_commanded (writing : Bool) {lba : UInt32} {op : UInt8} {Q : Unit → IdeIo → Prop} {E : Fault → Prop}
    (low : lba ≤ maxLba) (h : Q () ((s.expect hd.myChannel true).setChannel hd.myChannel
      ((s.channel hd.myChannel).commanded hd lba op writing))) :
    wp (selectSector hd lba op)
      (fun _ t => wp (cmdOut hd.myChannel (if writing then cmdWriteSector else cmdReadSector)) Q E t) E s := by
  apply wp_selectSector low
  rw [wp_cmdOut, setChannel_channel, command_addressed low]
  have same (c : Controller) : (s.setChannel hd.myChannel c).expect hd.myChannel true =
      (s.expect hd.myChannel true).setChannel hd.myChannel c := rfl
  rw [same, setChannel_setChannel]
  exact h

theorem readTurn_spec {lba buf secCnt secsDone : UInt32} (prompt : Prompt s) (low : lba + secsDone ≤ maxLba) :
    Succeeds (readTurn hd lba buf secCnt secsDone) (fun r t => r = secsDone + secsOp secCnt secsDone ∧
      HasRead s t hd (lba + secsDone).toNat (buf + secsDone * 512).toNat
        (sectorsOf (secsOp secCnt secsDone).toUInt8)) s := by
  have pos := sectorsOf_pos (secsOp secCnt secsDone).toUInt8
  rw [readTurn, Succeeds]
  generalize (secsOp secCnt secsDone).toUInt8 = op at pos ⊢
  simp only [wp_bind]
  apply wp_commanded false low
  generalize hc : (s.channel hd.myChannel).commanded hd (lba + secsDone) op false = c
  apply wp_awaitDiskDone (Function.update_self ..)
  have wait : c.busy < 29999 := by
    rw [← hc]
    exact prompt _ _
  have left : c.left = 256 * sectorsOf op := by rw [← hc, Controller.commanded]
  have here : (((s.expect hd.myChannel true).setChannel hd.myChannel c).expect hd.myChannel false).channel hd.myChannel = c :=
    setChannel_channel ..
  refine wp_mono (busyWait_spec (by rwa [here]) (by rw [here, left]; omega)) ?_ fun _ no => no.elim
  rintro _ t ⟨rfl, rfl⟩
  rw [here, wp_assert]
  refine ⟨fun _ => ?_, fun no => (no rfl).elim⟩
  rw [readFromSector, sizeInWords_eq]
  refine wp_mono (insw_spec ?_ ?_) ?_ fun _ no => no.elim
  · rw [setChannel_channel]
    exact Nat.le_of_eq left.symm
  · rw [setChannel_channel, ← hc]
    rfl
  rintro _ t rfl
  refine (wp_pure _).2 ⟨rfl, ?_, fun ch => ?_, fun ch => ?_⟩
  · dsimp only
    rw [setChannel_channel, ← hc, ← Nat.mul_assoc]
    rfl
  all_goals
    dsimp only
    by_cases mine : ch = hd.myChannel
    · rw [mine, setChannel_channel, setChannel_channel, ← hc]
      rfl
    · rw [setChannel_other _ mine, setChannel_other _ mine, expect_channel, setChannel_other _ mine, expect_channel]

theorem writeTurn_spec {lba buf secCnt secsDone : UInt32} (prompt : Prompt s) (low : lba + secsDone ≤ maxLba) :
    Succeeds (writeTurn hd lba buf secCnt secsDone) (fun r t => r = secsDone + secsOp secCnt secsDone ∧
      HasWritten s t hd (lba + secsDone).toNat (buf + secsDone * 512).toNat
        (sectorsOf (secsOp secCnt secsDone).toUInt8)) s := by
  have pos := sectorsOf_pos (secsOp secCnt secsDone).toUInt8
  rw [writeTurn, Succeeds]
  generalize (secsOp secCnt secsDone).toUInt8 = op at pos ⊢
  simp only [wp_bind]
  apply wp_commanded true low
  generalize hc : (s.channel hd.myChannel).commanded hd (lba + secsDone) op true = c
  have wait : c.busy < 29999 := by
    rw [← hc]
    exact prompt _ _
  have left : c.left = 256 * sectorsOf op := by rw [← hc, Controller.commanded]
  have here : ((s.expect hd.myChannel true).setChannel hd.myChannel c).channel hd.myChannel = c := setChannel_channel ..
  refine wp_mono (busyWait_spec (by rwa [here]) (by rw [here, left]; omega)) ?_ fun _ no => no.elim
  rintro _ t ⟨rfl, rfl⟩
  rw [here, wp_assert]
  refine ⟨fun _ => ?_, fun no => (no rfl).elim⟩
  rw [write2Sector, sizeInWords_eq]
  refine wp_mono (outsw_spec ?_ ?_) ?_ fun _ no => no.elim
  · rw [setChannel_channel]
    exact Nat.le_of_eq left.symm
  · rw [setChannel_channel, ← hc]
    rfl
  rintro _ t rfl
  apply wp_awaitDiskDone (Function.update_self ..)
  refine (wp_pure _).2 ⟨rfl, rfl, ?_, fun ch other => ?_, fun ch => ?_⟩
  · have bytes : 512 * sectorsOf op = 2 * (256 * sectorsOf op) := Nat.mul_assoc 2 256 _
    rw [expect_channel, setChannel_channel, setChannel_channel, ← hc, bytes]
    rfl
  · rw [expect_channel, setChannel_other _ other, setChannel_other _ other, setChannel_other _ other, expect_channel]
  · rw [expect_channel]
    by_cases mine : ch = hd.myChannel
    · rw [mine, setChannel_channel, setChannel_channel, ← hc]
      rfl
    · rw [setChannel_other _ mine, setChannel_other _ mine, setChannel_other _ mine, expect_channel]

/-! The loops and the calls. -/

theorem blit_append (dst src : Buf) (a p m n : Nat) :
    blit (blit dst a m (slice src p)) (a + m) n (slice src (p + m)) = blit dst a (m + n) (slice src p) := by
  funext k
  by_cases first : a ≤ k ∧ k < a + m
  · rw [blit_of_not_mem (by omega), blit_of_mem first.1 first.2, blit_of_mem first.1 (by omega)]
  · by_cases second : a + m ≤ k ∧ k < a + m + n
    · rw [blit_of_mem second.1 second.2, blit_of_mem (by omega) (by omega), slice, slice]
      congr 1
      omega
    · rw [blit_of_not_mem (by omega), blit_of_not_mem (by omega), blit_of_not_mem (by omega)]

variable {u : IdeIo} {l a m n : Nat}

theorem HasRead.trans (first : HasRead s t hd l a m) (second : HasRead t u hd (l + m) (a + 512 * m) n) :
    HasRead s u hd l a (m + n) where
  ram := by
    have drive : t.drive hd = s.drive hd := congrFun (first.disk hd.myChannel) hd.slave
    rw [second.ram, first.ram, drive, Nat.mul_add, blit_append, Nat.mul_add]
  disk c := (second.disk c).trans (first.disk c)
  delay c := (second.delay c).trans (first.delay c)

theorem HasWritten.drive (h : HasWritten s t hd l a m) :
    t.drive hd = blit (s.drive hd) (512 * l) (512 * m) (slice s.ram a) := by
  rw [IdeIo.drive, h.disk, Function.update_self]

theorem HasWritten.trans (first : HasWritten s t hd l a m) (second : HasWritten t u hd (l + m) (a + 512 * m) n) :
    HasWritten s u hd l a (m + n) where
  ram := second.ram.trans first.ram
  disk := by
    rw [second.disk, first.disk, Function.update_idem, first.drive, first.ram, Nat.mul_add, blit_append, Nat.mul_add]
  others c other := (second.others c other).trans (first.others c other)
  delay c := (second.delay c).trans (first.delay c)

theorem Prompt.congr (prompt : Prompt s) (delay : ∀ c, (t.channel c).delay = (s.channel c).delay) : Prompt t :=
  fun c n => (delay c).symm ▸ prompt c n

/-- The sectors are on the disk and the buffer is in memory. -/
structure InRange (lba buf secCnt : UInt32) : Prop where
  some_sectors : 0 < secCnt
  disk : lba.toNat + secCnt.toNat ≤ maxLba.toNat + 1
  memory : buf.toNat + 512 * secCnt.toNat ≤ 2 ^ 32

section Loop
variable {lba buf secCnt secsDone : UInt32}

theorem InRange.lba_add (range : InRange lba buf secCnt) (more : secsDone < secCnt) :
    (lba + secsDone).toNat = lba.toNat + secsDone.toNat ∧ lba + secsDone ≤ maxLba := by
  have disk := range.disk
  have less : secsDone.toNat < secCnt.toNat := more
  have limit : maxLba.toNat = 163839 := rfl
  have sum : (lba + secsDone).toNat = lba.toNat + secsDone.toNat := by
    rw [UInt32.toNat_add]
    exact Nat.mod_eq_of_lt (by omega)
  refine ⟨sum, ?_⟩
  change (lba + secsDone).toNat ≤ maxLba.toNat
  omega

theorem InRange.buf_add (range : InRange lba buf secCnt) (more : secsDone < secCnt) :
    (buf + secsDone * 512).toNat = buf.toNat + 512 * secsDone.toNat := by
  have memory := range.memory
  have less : secsDone.toNat < secCnt.toNat := more
  rw [UInt32.toNat_add, UInt32.toNat_mul, show (512 : UInt32).toNat = 512 from rfl]
  omega

theorem InRange.turn (range : InRange lba buf secCnt) (more : secsDone < secCnt) :
    ∃ op, sectorsOf (secsOp secCnt secsDone).toUInt8 = op ∧ 0 < op ∧ secsDone.toNat + op ≤ secCnt.toNat ∧
      (secsDone + secsOp secCnt secsDone).toNat = secsDone.toNat + op := by
  have disk := range.disk
  have limit : maxLba.toNat = 163839 := rfl
  have less : secsDone.toNat < secCnt.toNat := more
  obtain ⟨pos, most, op⟩ := secsOp_spec more (by omega)
  refine ⟨_, op, pos, by omega, ?_⟩
  rw [UInt32.toNat_add]
  exact Nat.mod_eq_of_lt (by omega)

/-- A loop over the sectors that keeps an invariant of their number. -/
theorem forSectors_spec {body : UInt32 → Kern IdeIo UInt32} {fuel : Nat} (I : Nat → IdeIo → Prop)
    (turn : ∀ secsDone t, secsDone < secCnt → I secsDone.toNat t → Succeeds (body secsDone)
      (fun r u => secsDone < r ∧ r ≤ secCnt ∧ I r.toNat u) t)
    (start : I secsDone.toNat s) (done : secsDone ≤ secCnt) (enough : secCnt.toNat - secsDone.toNat < fuel) :
    Succeeds (forSectors secCnt body fuel secsDone) (fun _ t => I secCnt.toNat t) s := by
  induction fuel generalizing s secsDone with
  | zero => exact (Nat.not_lt_zero _ enough).elim
  | succ fuel ih =>
    rw [forSectors]
    by_cases more : secsDone < secCnt
    · rw [if_pos more, Succeeds, wp_bind]
      refine wp_mono (turn secsDone s more start) ?_ fun _ no => no.elim
      rintro r t ⟨after, most, kept⟩
      have less : secsDone.toNat < r.toNat := after
      have less' : secsDone.toNat < secCnt.toNat := more
      exact ih kept most (by omega)
    · rw [if_neg more]
      rw [UInt32.le_antisymm done (UInt32.not_lt.1 more)] at start
      exact (wp_pure _).2 start

theorem selectDisk_spec : Succeeds (selectDisk hd) (fun _ t => t.ram = s.ram ∧
    ∀ c, (t.channel c).disk = (s.channel c).disk ∧ (t.channel c).delay = (s.channel c).delay) s := by
  rw [selectDisk, Succeeds, wp_outb]
  refine ⟨rfl, fun c => ?_⟩
  by_cases mine : c = hd.myChannel
  · rw [mine, setChannel_channel]
    exact ⟨rfl, rfl⟩
  · rw [setChannel_other _ mine]
    exact ⟨rfl, rfl⟩

theorem InRange.start (range : InRange lba buf secCnt) : lba ≤ maxLba := by
  have first := (range.lba_add range.some_sectors).2
  rwa [UInt32.add_zero] at first

theorem ideRead_spec (prompt : Prompt s) (range : InRange lba buf secCnt) :
    Succeeds (ideRead hd lba buf secCnt) (fun _ t => HasRead s t hd lba.toNat buf.toNat secCnt.toNat) s := by
  rw [ideRead, Succeeds, wp_bind, wp_assert]
  refine ⟨fun _ => ?_, fun no => (no range.start).elim⟩
  rw [wp_bind, wp_assert]
  refine ⟨fun _ => ?_, fun no => (no range.some_sectors).elim⟩
  rw [wp_bind]
  refine wp_mono selectDisk_spec ?_ fun _ no => no.elim
  rintro _ t ⟨ram, same⟩
  have selected : HasRead s t hd lba.toNat buf.toNat 0 :=
    ⟨ram.trans (blit_zero ..).symm, fun c => (same c).1, fun c => (same c).2⟩
  apply forSectors_spec (fun k u => HasRead s u hd lba.toNat buf.toNat k) ?_ selected (UInt32.zero_le ..) (by
    have small := secCnt.toNat_lt
    omega)
  intro secsDone u more moved
  obtain ⟨sector, low⟩ := range.lba_add more
  obtain ⟨op, count, pos, most, next⟩ := range.turn more
  refine wp_post (readTurn_spec (prompt.congr moved.delay) low) ?_
  rintro _ v ⟨rfl, turn⟩
  rw [sector, range.buf_add more, count] at turn
  refine ⟨UInt32.lt_iff_toNat_lt.2 (by omega), UInt32.le_iff_toNat_le.2 (by omega), ?_⟩
  rw [next]
  exact moved.trans turn

theorem ideWrite_spec (prompt : Prompt s) (range : InRange lba buf secCnt) :
    Succeeds (ideWrite hd lba buf secCnt) (fun _ t => HasWritten s t hd lba.toNat buf.toNat secCnt.toNat) s := by
  rw [ideWrite, Succeeds, wp_bind, wp_assert]
  refine ⟨fun _ => ?_, fun no => (no range.start).elim⟩
  rw [wp_bind, wp_assert]
  refine ⟨fun _ => ?_, fun no => (no range.some_sectors).elim⟩
  rw [wp_bind]
  refine wp_mono selectDisk_spec ?_ fun _ no => no.elim
  rintro _ t ⟨ram, same⟩
  have selected : HasWritten s t hd lba.toNat buf.toNat 0 := by
    refine ⟨ram, ?_, fun c _ => (same c).1, fun c => (same c).2⟩
    rw [(same hd.myChannel).1, Nat.mul_zero, blit_zero, IdeIo.drive, Function.update_eq_self]
  apply forSectors_spec (fun k u => HasWritten s u hd lba.toNat buf.toNat k) ?_ selected (UInt32.zero_le ..) (by
    have small := secCnt.toNat_lt
    omega)
  intro secsDone u more moved
  obtain ⟨sector, low⟩ := range.lba_add more
  obtain ⟨op, count, pos, most, next⟩ := range.turn more
  refine wp_post (writeTurn_spec (prompt.congr moved.delay) low) ?_
  rintro _ v ⟨rfl, turn⟩
  rw [sector, range.buf_add more, count] at turn
  refine ⟨UInt32.lt_iff_toNat_lt.2 (by omega), UInt32.le_iff_toNat_le.2 (by omega), ?_⟩
  rw [next]
  exact moved.trans turn

/-! What is read is the newest that was written. -/

/-- The two name the same drive. -/
def Hd.Same (d e : Hd) : Prop := d.myChannel = e.myChannel ∧ d.slave = e.slave

instance (d e : Hd) : Decidable (d.Same e) := inferInstanceAs (Decidable (_ ∧ _))

theorem HasWritten.drives (h : HasWritten s t hd l a m) (d : Hd) :
    t.drive d = if d.Same hd then blit (s.drive hd) (512 * l) (512 * m) (slice s.ram a) else s.drive d := by
  split
  · next same => rw [← h.drive, IdeIo.drive, IdeIo.drive, same.1, same.2]
  · next other =>
    rw [IdeIo.drive, IdeIo.drive]
    by_cases mine : d.myChannel = hd.myChannel
    · rw [mine, h.disk, Function.update_of_ne fun same => other ⟨mine, same⟩]
    · rw [h.others _ mine]

theorem HasRead.drives (h : HasRead s t hd l a m) (d : Hd) : t.drive d = s.drive d :=
  congrFun (h.disk d.myChannel) d.slave

structure Request where
  write : Bool
  hd : Hd
  lba : UInt32
  buf : UInt32
  secCnt : UInt32

def Request.run (r : Request) : Kern IdeIo Unit :=
  if r.write then ideWrite r.hd r.lba r.buf r.secCnt else ideRead r.hd r.lba r.buf r.secCnt

/-- The requests one after the other, each with its own content of the memory. -/
def playAll : List (Buf × Request) → Kern IdeIo Unit
  | [] => pure ()
  | (ram, r) :: rest => do
    modify fun s => { s with ram := ram }
    r.run
    playAll rest

/-- The byte at k of the drive hd is written by the request. -/
def Request.Covers (r : Request) (hd : Hd) (k : Nat) : Prop :=
  r.write = true ∧ hd.Same r.hd ∧ 512 * r.lba.toNat ≤ k ∧ k < 512 * r.lba.toNat + 512 * r.secCnt.toNat

instance (r : Request) (hd : Hd) (k : Nat) : Decidable (r.Covers hd k) := inferInstanceAs (Decidable (_ ∧ _))

/-- The bytes on a drive that held old, after the requests, the newest first. -/
def newest (hd : Hd) (old : Buf) : List (Buf × Request) → Buf
  | [], k => old k
  | (ram, r) :: earlier, k =>
    if r.Covers hd k then ram (r.buf.toNat + (k - 512 * r.lba.toNat)) else newest hd old earlier k

theorem newest_append (hd : Hd) (old : Buf) (later earlier : List (Buf × Request)) :
    newest hd old (later ++ earlier) = newest hd (newest hd old earlier) later := by
  induction later with
  | nil => rfl
  | cons x later ih =>
    funext k
    rw [List.cons_append, newest, newest, ih]

def Request.InRange (r : Request) : Prop := Device.InRange r.lba r.buf r.secCnt

theorem Request.run_spec {ram : Buf} {r : Request} (prompt : Prompt s) (range : r.InRange) :
    Succeeds r.run (fun _ t => Prompt t ∧ ∀ d, t.drive d = newest d (s.drive d) [(ram, r)]) { s with ram := ram } := by
  have same : Prompt { s with ram := ram } := prompt
  rw [Request.run]
  cases writes : r.write with
  | true =>
    refine wp_post (@ideWrite_spec _ r.hd _ _ _ same range) ?_
    rintro _ t written
    refine ⟨prompt.congr written.delay, fun d => ?_⟩
    rw [written.drives]
    funext k
    split
    · next drive =>
      have home : s.drive d = s.drive r.hd := by rw [IdeIo.drive, IdeIo.drive, drive.1, drive.2]
      rw [newest, blit]
      by_cases inside : 512 * r.lba.toNat ≤ k ∧ k < 512 * r.lba.toNat + 512 * r.secCnt.toNat
      · rw [if_pos inside, if_pos ⟨writes, drive, inside⟩]
        rfl
      · rw [if_neg inside, if_neg fun covers => inside covers.2.2, newest, home]
        rfl
    · next other =>
      rw [newest, if_neg fun covers => other covers.2.1]
      rfl
  | false =>
    refine wp_post (@ideRead_spec _ r.hd _ _ _ same range) ?_
    rintro _ t moved
    refine ⟨prompt.congr moved.delay, fun d => ?_⟩
    rw [moved.drives]
    funext k
    rw [newest, if_neg fun covers => (Bool.false_ne_true (writes.symm.trans covers.1)).elim]
    rfl

theorem playAll_spec {history : List (Buf × Request)} (prompt : Prompt s) (range : ∀ x ∈ history, x.2.InRange) :
    Succeeds (playAll history) (fun _ t => Prompt t ∧ ∀ d, t.drive d = newest d (s.drive d) history.reverse) s := by
  induction history generalizing s with
  | nil => exact (wp_pure _).2 ⟨prompt, fun _ => rfl⟩
  | cons x rest ih =>
    rw [playAll, Succeeds, wp_bind, wp_modify, wp_bind]
    refine wp_mono (Request.run_spec prompt (range x List.mem_cons_self)) ?_ fun _ no => no.elim
    rintro _ t ⟨prompt', first⟩
    refine wp_post (ih prompt' fun y mem => range y (List.mem_cons_of_mem _ mem)) ?_
    rintro _ u ⟨prompt'', later⟩
    refine ⟨prompt'', fun d => ?_⟩
    rw [later, first, List.reverse_cons, newest_append]

/-- A write replaces its sectors by the buffer, a read fills the buffer with its sectors, neither touches anything
else, and after any requests a read gives the newest bytes. -/
theorem transfers_exact (prompt : Prompt s) (range : InRange lba buf secCnt) :
    Succeeds (ideWrite hd lba buf secCnt) (fun _ t => t.ram = s.ram ∧ ∀ d, t.drive d = if d.Same hd then
      blit (s.drive hd) (512 * lba.toNat) (512 * secCnt.toNat) (slice s.ram buf.toNat) else s.drive d) s ∧
    Succeeds (ideRead hd lba buf secCnt) (fun _ t => (∀ d, t.drive d = s.drive d) ∧
      t.ram = blit s.ram buf.toNat (512 * secCnt.toNat) (slice (s.drive hd) (512 * lba.toNat))) s ∧
    ∀ history, (∀ x ∈ history, x.2.InRange) → Succeeds (do playAll history; ideRead hd lba buf secCnt)
      (fun _ t => ∀ k < 512 * secCnt.toNat, t.ram (buf.toNat + k) =
        newest hd (s.drive hd) history.reverse (512 * lba.toNat + k)) s := by
  refine ⟨?_, ?_, fun history inRange => ?_⟩
  · exact wp_post (ideWrite_spec prompt range) fun _ t written => ⟨written.ram, written.drives⟩
  · exact wp_post (ideRead_spec prompt range) fun _ t moved => ⟨moved.drives, moved.ram⟩
  · rw [Succeeds, wp_bind]
    refine wp_mono (playAll_spec prompt inRange) ?_ fun _ no => no.elim
    rintro _ t ⟨prompt', drives⟩
    refine wp_post (ideRead_spec prompt' range) ?_
    rintro _ u moved k hk
    rw [moved.ram, blit_of_mem (Nat.le_add_right ..) (by omega), Nat.add_sub_cancel_left, slice, drives]

/-- Blank disks whose controllers are busy for one look at the status. -/
def blankDisks : IdeIo where
  channel _ := ⟨0, 0, 0, 0, 0, fun _ => 1, 0, 0, false, false, 0, 0, fun _ _ => 0⟩
  expectingIntr _ := false
  ram k := UInt8.ofNat k

/-- A write of 300 sectors takes two commands. -/
theorem transfers_exact_two_turns : Succeeds (ideWrite ⟨false, 1⟩ 100 0x1000 300) (fun _ t => t.ram = blankDisks.ram ∧
    ∀ d, t.drive d = if d.Same ⟨false, 1⟩ then blit (fun _ => 0) 51200 153600 (slice blankDisks.ram 0x1000)
      else fun _ => 0) blankDisks := by
  have prompt : Prompt blankDisks := fun _ _ => (by decide : 1 < 29999)
  exact (transfers_exact prompt ⟨by decide, by decide, by decide⟩).1

end Loop

end Zhenxiang.Device
