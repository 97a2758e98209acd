import Zhenxiang.Fs.Resolve
import Zhenxiang.Lib.Text

/-! path_parse and path_depth_cnt on the bytes of a path in memory and the array name[16]. Its stores are
checked against the array, the addresses read are recorded. -/
namespace Zhenxiang.Fs.PathBytes
open Lib Kernel

/-- The lists record the addresses read, the bytes stored by the call of path_parse that goes on, and
those of the calls before; no function reads them. -/
structure ParseState where
  mem : Buf
  name : Buf
  reads : List Nat
  stored : List UInt8
  names : List (List UInt8)

abbrev Parse (α : Type) := Kern ParseState α

def load (p : Nat) : Parse UInt8 := do
  modify fun s => { s with reads := s.reads ++ [p] }
  pure ((← get).mem p)

def store (k : Nat) (c : UInt8) : Parse Unit := do
  check (k < maxFileNameLen) .undefined
  modify fun s => { s with name := Function.update s.name k c, stored := s.stored ++ [c] }

/-- The loop that skips the slashes behind the first. -/
def skipSlashes : Nat → Nat → Parse Nat
  | 0, _ => throw .diverges
  | fuel + 1, p => do
    if (← load (p + 1)) = slash then
      skipSlashes fuel (p + 1)
    else
      pure (p + 1)

/-- The loop that copies up to a slash or the end; k is how far name_store has gone. -/
def copyName : Nat → Nat → Nat → Parse Nat
  | 0, _, _ => throw .diverges
  | fuel + 1, p, k => do
    let c ← load p
    if c ≠ slash ∧ c ≠ 0 then
      store k c
      copyName fuel (p + 1) (k + 1)
    else
      pure p

/-- The slashes at the front are not a name. -/
def skipFront (fuel p : Nat) : Parse Nat := do
  if (← load p) = slash then
    skipSlashes fuel p
  else
    pure p

/-- The pointer 0 is NULL. -/
def pathParse (fuel p : Nat) : Parse Nat := do
  modify fun s => { s with stored := [] }
  let p ← skipFront fuel p
  let p ← copyName fuel p 0
  modify fun s => { s with names := s.names ++ [s.stored] }
  pure (if (← load p) = 0 then 0 else p)

/-- memset of the whole array. -/
def clearName : Parse Unit :=
  modify fun s => { s with name := fun k => if k < maxFileNameLen then 0 else s.name k }

/-- The parse of the next name, unless the path has ended. -/
def parseNext (fuel p : Nat) : Parse Nat :=
  if p ≠ 0 then pathParse fuel p else pure p

def depthLoop (fuel : Nat) : Nat → Nat → UInt32 → Parse UInt32
  | 0, _, _ => throw .diverges
  | rounds + 1, p, depth => do
    if (← get).name 0 ≠ 0 then
      clearName
      let p ← parseNext fuel p
      depthLoop fuel rounds p (depth + 1)
    else
      pure depth

/-- The array name is not initialised. -/
def pathDepthCnt (fuel pathname : Nat) : Parse UInt32 := do
  assert (pathname ≠ 0)
  let p ← pathParse fuel pathname
  depthLoop fuel fuel p 0

variable {m : Buf} {p q k fuel last : Nat} {l path : List UInt8} {s t : ParseState} {Q : UInt8 → ParseState → Prop}
  {R : Unit → ParseState → Prop} {E : Fault → Prop}

theorem wp_load : wp (load p) Q E s ↔ Q (s.mem p) { s with reads := s.reads ++ [p] } := by
  simp only [load, wp_bind, wp_modify, wp_get, wp_pure]

theorem wp_store {c : UInt8} : wp (store k c) R E s ↔
    (k < maxFileNameLen → R () { s with name := Function.update s.name k c, stored := s.stored ++ [c] }) ∧
      (¬k < maxFileNameLen → E .undefined) := by
  simp only [store, wp_bind, wp_check, wp_modify]

/-- The string m at p is not changed, and only its bytes are read. -/
structure Reads (m : Buf) (p last : Nat) (s : ParseState) : Prop where
  mem : s.mem = m
  inside : ∀ a ∈ s.reads, p ≤ a ∧ a ≤ last

theorem Reads.load (h : Reads m p last s) (low : p ≤ q) (high : q ≤ last) :
    Reads m p last { s with reads := s.reads ++ [q] } := by
  refine ⟨h.mem, fun a mem => ?_⟩
  rcases List.mem_append.1 mem with old | new
  · exact h.inside a old
  · rw [List.mem_singleton.1 new]
    exact ⟨low, high⟩

/-- The pointer q is at the string l, which ends where the path does. -/
structure At (m : Buf) (p last q : Nat) (l : List UInt8) : Prop where
  string : CString m q l
  low : p ≤ q
  ends : q + l.length = last

theorem At.next {c : UInt8} (h : At m p last q (c :: l)) : At m p last (q + 1) l :=
  ⟨h.string.tail, Nat.le_succ_of_le h.low, by have := h.ends; rw [List.length_cons] at this; omega⟩

theorem At.first (h : At m p last q l) : m q = l.headD 0 := by
  cases l with
  | nil => exact h.string.first_nil
  | cons c l => exact h.string.head.1

/-- What a step of path_parse keeps besides. -/
structure Kept (s t : ParseState) : Prop where
  name : t.name = s.name
  stored : t.stored = s.stored
  names : t.names = s.names

theorem skipSlashes_spec (h : Reads m p last s) {c : UInt8} (here : At m p last q (c :: l)) (enough : l.length < fuel) :
    Succeeds (skipSlashes fuel q) (fun r t => Reads m p last t ∧ Kept s t ∧ At m p last r (l.dropWhile (· == slash))) s := by
  induction l generalizing fuel q c s with
  | nil =>
    obtain ⟨rounds, rfl⟩ := Nat.exists_eq_succ_of_ne_zero (Nat.ne_zero_of_lt enough)
    have next := here.next
    have ends : s.mem (q + 1) = 0 := h.mem ▸ next.first
    rw [skipSlashes, Succeeds, wp_bind, wp_load, ends, if_neg (by decide), wp_pure]
    exact ⟨h.load next.low (by have := next.ends; omega), ⟨rfl, rfl, rfl⟩, next⟩
  | cons d l ih =>
    obtain ⟨rounds, rfl⟩ := Nat.exists_eq_succ_of_ne_zero (Nat.ne_zero_of_lt enough)
    have next := here.next
    have char : s.mem (q + 1) = d := h.mem ▸ next.first
    have seen := h.load next.low (show q + 1 ≤ last by have := next.ends; omega)
    rw [skipSlashes, Succeeds, wp_bind, wp_load, char]
    by_cases more : d = slash
    · rw [if_pos more, List.dropWhile_cons_of_pos (by rw [more]; rfl)]
      apply wp_post (ih seen next (Nat.lt_of_succ_lt_succ enough))
      rintro r t ⟨reads, kept, after⟩
      exact ⟨reads, ⟨kept.name, kept.stored, kept.names⟩, after⟩
    · rw [if_neg more, List.dropWhile_cons_of_neg (by simpa using more), wp_pure]
      exact ⟨seen, ⟨rfl, rfl, rfl⟩, next⟩

theorem copyName_spec (h : Reads m p last s) (here : At m p last q l) (enough : l.length < fuel) (room : k ≤ maxFileNameLen) :
    wp (copyName fuel q k)
      (fun r t => k + (l.takeWhile (· != slash)).length ≤ maxFileNameLen ∧ Reads m p last t ∧
        t.name = overlay s.name k (l.takeWhile (· != slash)) ∧ t.stored = s.stored ++ l.takeWhile (· != slash) ∧
        t.names = s.names ∧ At m p last r (l.dropWhile (· != slash)))
      (fun _ => maxFileNameLen < k + (l.takeWhile (· != slash)).length) s := by
  induction l generalizing fuel q k s with
  | nil =>
    obtain ⟨rounds, rfl⟩ := Nat.exists_eq_succ_of_ne_zero (Nat.ne_zero_of_lt enough)
    have ends : s.mem q = 0 := h.mem ▸ here.first
    rw [copyName, wp_bind, wp_load, ends, if_neg (by decide), wp_pure]
    exact ⟨room, h.load here.low (by have := here.ends; omega), overlay_nil.symm, (List.append_nil _).symm, rfl, here⟩
  | cons c l ih =>
    obtain ⟨rounds, rfl⟩ := Nat.exists_eq_succ_of_ne_zero (Nat.ne_zero_of_lt enough)
    have char : s.mem q = c := h.mem ▸ here.first
    have seen := h.load here.low (show q ≤ last by have := here.ends; omega)
    rw [copyName, wp_bind, wp_load, char]
    by_cases stop : c = slash
    · rw [if_neg (fun both => both.1 stop), List.takeWhile_cons_of_neg (by simpa using stop),
        List.dropWhile_cons_of_neg (by simpa using stop), wp_pure]
      exact ⟨room, seen, overlay_nil.symm, (List.append_nil _).symm, rfl, here⟩
    · rw [if_pos ⟨stop, here.string.head.2⟩, List.takeWhile_cons_of_pos (by simpa using stop),
        List.dropWhile_cons_of_pos (by simpa using stop), wp_bind, wp_store]
      refine ⟨fun fits => ?_, fun full => ?_⟩
      · refine wp_mono (ih ⟨seen.mem, seen.inside⟩ here.next (Nat.lt_of_succ_lt_succ enough) fits) ?_ ?_
        · rintro r t ⟨short, reads, name, stored, names, after⟩
          refine ⟨by rw [List.length_cons]; omega, reads, ?_, ?_, names, after⟩
          · rw [name, ← overlay_singleton]
            exact overlay_append (a := [c])
          · rw [stored, List.append_assoc]
            rfl
        · intro e long
          rw [List.length_cons]
          omega
      · rw [List.length_cons]
        omega

/-- Where the pointer returned is, for the rest of the path. -/
def RestAt (m : Buf) (p last r : Nat) : Option CStr → Prop
  | none => r = 0
  | some l => r ≠ 0 ∧ At m p last r l

theorem skipFront_spec (h : Reads m p last s) (here : At m p last q l) (enough : l.length < fuel) :
    Succeeds (skipFront fuel q)
      (fun r t => Reads m p last t ∧ Kept s t ∧ At m p last r (l.dropWhile (· == slash))) s := by
  have char : s.mem q = l.headD 0 := h.mem ▸ here.first
  have seen := h.load here.low (show q ≤ last by have := here.ends; omega)
  rw [skipFront, Succeeds, wp_bind, wp_load, char]
  cases l with
  | nil => exact (wp_pure _).2 ⟨seen, ⟨rfl, rfl, rfl⟩, here⟩
  | cons c l =>
    rw [List.headD_cons]
    by_cases first : c = slash
    · rw [if_pos first, List.dropWhile_cons_of_pos (by rw [first]; rfl)]
      apply wp_post (skipSlashes_spec seen here (Nat.lt_of_succ_lt enough))
      rintro r t ⟨reads, kept, after⟩
      exact ⟨reads, ⟨kept.name, kept.stored, kept.names⟩, after⟩
    · rw [if_neg first, List.dropWhile_cons_of_neg (by simpa using first)]
      exact (wp_pure _).2 ⟨seen, ⟨rfl, rfl, rfl⟩, here⟩

/-- One call splits off what the parser of strings does. -/
theorem pathParse_spec (h : Reads m p last s) (nonnull : p ≠ 0) (here : At m p last q l) (enough : l.length < fuel) :
    wp (pathParse fuel q)
      (fun r t => (Fs.pathParse l).1.length ≤ maxFileNameLen ∧ Reads m p last t ∧ t.name = overlay s.name 0 (Fs.pathParse l).1 ∧
        t.names = s.names ++ [(Fs.pathParse l).1] ∧ RestAt m p last r (Fs.pathParse l).2)
      (fun _ => maxFileNameLen < (Fs.pathParse l).1.length) s := by
  have cleared : Reads m p last { s with stored := [] } := ⟨h.mem, h.inside⟩
  rw [pathParse, wp_bind, wp_modify, wp_bind]
  refine wp_mono (skipFront_spec cleared here enough) ?_ fun _ impossible => impossible.elim
  rintro r t ⟨reads, kept, start⟩
  have fewer : (l.dropWhile (· == slash)).length < fuel := (List.length_dropWhile_le _ l).trans_lt enough
  rw [Fs.pathParse, wp_bind]
  dsimp only
  generalize l.dropWhile (· == slash) = l' at start fewer ⊢
  refine wp_mono (copyName_spec reads start fewer (Nat.zero_le _)) ?_ ?_
  · rintro a u ⟨short, reads, name, stored, names, after⟩
    rw [Nat.zero_add] at short
    have added : u.stored = l'.takeWhile (· != slash) := by rw [stored, kept.stored]; rfl
    have char : u.mem a = (l'.dropWhile (· != slash)).headD 0 := reads.mem ▸ after.first
    have seen := reads.load after.low (show a ≤ last by have := after.ends; omega)
    rw [wp_bind, wp_modify, wp_bind, wp_load, wp_pure]
    dsimp only
    refine ⟨short, ⟨seen.mem, seen.inside⟩, ?_, ?_, ?_⟩
    · rw [name, kept.name]
    · rw [added, names, kept.names]
    · rw [char]
      cases behind : l'.dropWhile (· != slash) with
      | nil => exact if_pos rfl
      | cons c rest =>
        rw [behind] at after
        rw [List.headD_cons, if_neg after.string.head.2, if_neg (List.cons_ne_nil c rest)]
        have := after.low
        exact ⟨by omega, after⟩
  · intro _ long
    rw [Nat.zero_add] at long
    exact long

/-! The whole path. -/

/-- The names that the calls so far have stored. -/
def ParseState.found (s : ParseState) : List CStr := s.names.filter (· ≠ [])

theorem remaining_split (name : CStr) (subPath : Option CStr) :
    [name].filter (· ≠ []) ++ (remaining name subPath).tail = remaining name subPath := by
  rw [remaining]
  by_cases empty : name = []
  · rw [if_pos empty, empty]
    rfl
  · rw [if_neg empty, List.filter_cons_of_pos (by simpa using empty)]
    rfl

theorem pathParse_solid (solid : 0 ∉ l) : 0 ∉ (Fs.pathParse l).1 := fun mem =>
  solid ((List.dropWhile_sublist _).subset ((List.takeWhile_sublist _).subset mem))

theorem pathParse_shorter {rest : CStr} (eq : (Fs.pathParse l).2 = some rest) : rest.length ≤ l.length := by
  rw [Fs.pathParse] at eq
  dsimp only at eq
  split at eq
  · cases eq
  · rw [← Option.some.inj eq]
    exact (List.length_dropWhile_le _ _).trans (List.length_dropWhile_le _ _)

theorem overlay_first {name : CStr} (some_byte : name ≠ []) (solid : 0 ∉ name) : overlay m 0 name 0 ≠ 0 := by
  cases name with
  | nil => exact (some_byte rfl).elim
  | cons c rest =>
    have char : overlay m 0 (c :: rest) 0 = c := overlay_get (p := 0) (k := 0) (l := c :: rest) (Nat.zero_lt_succ _)
    rw [char]
    exact fun zero => solid (zero ▸ List.mem_cons_self)

/-- A cleared array starts with a zero byte until a name is stored. -/
theorem overlay_empty {name : CStr} (zero : m 0 = 0) (solid : 0 ∉ name) : overlay m 0 name 0 = 0 ↔ name = [] := by
  constructor
  · intro eq
    by_contra some_byte
    exact overlay_first some_byte solid eq
  · intro eq
    rw [eq, overlay_nil]
    exact zero

/-- What the loop does with a name in the array and the rest of the path to come. -/
structure Loops (m : Buf) (p last : Nat) (comps : List CStr) (depth : UInt32) (s : ParseState) (r : UInt32) (t : ParseState) :
    Prop where
  short : ∀ c ∈ comps.tail, c.length ≤ maxFileNameLen
  reads : Reads m p last t
  depth : r = depth + UInt32.ofNat comps.length
  found : t.found = s.found ++ comps.tail

theorem depthLoop_spec (rounds : Nat) (nonnull : p ≠ 0) : ∀ (name : CStr) (subPath : Option CStr) (q : Nat) (depth : UInt32)
    (s : ParseState), Reads m p last s → (s.name 0 = 0 ↔ name = []) → RestAt m p last q subPath →
    (∀ l, subPath = some l → l.length < fuel) → (remaining name subPath).length < rounds →
    wp (depthLoop fuel rounds q depth) (fun r t => Loops m p last (remaining name subPath) depth s r t)
      (fun _ => ¬∀ c ∈ (remaining name subPath).tail, c.length ≤ maxFileNameLen) s := by
  induction rounds with
  | zero => exact fun _ _ _ _ _ _ _ _ _ impossible => (Nat.not_lt_zero _ impossible).elim
  | succ rounds ih =>
    intro name subPath q depth s h first rest enough few
    rw [depthLoop, wp_bind, wp_get]
    by_cases empty : name = []
    · rw [if_neg (not_not.2 (first.2 empty)), remaining, if_pos empty, wp_pure]
      exact ⟨by simp, h, (UInt32.add_zero _).symm, (List.append_nil _).symm⟩
    · rw [remaining, if_neg empty] at few ⊢
      rw [if_pos fun zero => empty (first.1 zero), wp_bind, clearName, wp_modify, wp_bind, parseNext]
      have cleared : Reads m p last { s with name := fun k => if k < maxFileNameLen then 0 else s.name k } := ⟨h.mem, h.inside⟩
      cases subPath with
      | none =>
        rw [if_neg (not_not.2 (show q = 0 from rest)), wp_pure]
        refine wp_mono (ih [] none q (depth + 1) _ cleared ⟨fun _ => rfl, fun _ => rfl⟩ rest (fun _ none => by cases none)
          (Nat.lt_of_succ_lt_succ few)) ?_ ?_
        · rintro r t ⟨-, reads, rfl, found⟩
          exact ⟨by simp [componentsOf], reads, by simp [componentsOf, remaining], found⟩
        · intro _ long
          exact (long (by simp [remaining])).elim
      | some l =>
        have parsed := pathParse_remaining l
        have split := remaining_split (Fs.pathParse l).1 (Fs.pathParse l).2
        have solid := pathParse_solid rest.2.string.solid
        have shorter : ∀ l', (Fs.pathParse l).2 = some l' → l'.length < fuel := fun l' eq =>
          (pathParse_shorter eq).trans_lt (enough l rfl)
        have fewer : (remaining (Fs.pathParse l).1 (Fs.pathParse l).2).length < rounds := by
          rw [parsed]
          exact Nat.lt_of_succ_lt_succ few
        rw [if_pos rest.1, List.tail_cons, show componentsOf (some l) = components l from rfl, ← parsed]
        refine wp_mono (pathParse_spec cleared nonnull rest.2 (enough l rfl)) ?_ ?_
        · rintro a u ⟨short, reads, stored, names, after⟩
          have blank : u.name 0 = 0 ↔ (Fs.pathParse l).1 = [] := by
            rw [stored]
            exact overlay_empty rfl solid
          refine wp_mono (ih _ _ a (depth + 1) u reads blank after shorter fewer) ?_ ?_
          · rintro r t ⟨others, reads, rfl, found⟩
            refine ⟨fun c mem => ?_, reads, ?_, ?_⟩
            · rw [List.tail_cons, ← split] at mem
              rcases List.mem_append.1 mem with here | later
              · rw [List.mem_singleton.1 (List.mem_filter.1 here).1]
                exact short
              · exact others c later
            · rw [List.length_cons, Nat.add_comm, UInt32.ofNat_add, UInt32.add_assoc]
              rfl
            · have added : u.found = s.found ++ [(Fs.pathParse l).1].filter (· ≠ []) := by
                rw [ParseState.found, names, List.filter_append]
                rfl
              rw [found, added, List.append_assoc, split, List.tail_cons]
          · intro _ long all
            exact long fun c mem => all c (List.mem_of_mem_tail mem)
        · intro _ long all
          have some_byte : (Fs.pathParse l).1 ≠ [] := List.ne_nil_of_length_pos (Nat.zero_lt_of_lt long)
          have here := all (Fs.pathParse l).1 (by rw [remaining, if_neg some_byte]; exact List.mem_cons_self)
          omega

theorem pathDepthCnt_spec (h : Reads m p last s) (nonnull : p ≠ 0) (at_path : At m p last p path)
    (some_name : components path ≠ []) (none_found : s.names = []) (enough : path.length + 1 < fuel) :
    wp (pathDepthCnt fuel p)
      (fun depth t => (∀ c ∈ components path, c.length ≤ maxFileNameLen) ∧ Reads m p last t ∧
        depth = UInt32.ofNat (components path).length ∧ t.found = components path)
      (fun _ => ¬∀ c ∈ components path, c.length ≤ maxFileNameLen) s := by
  have few : (components path).length ≤ path.length + 1 := by
    have bound := joinNames_length path
    rw [components_slash, List.length_cons] at bound
    exact (length_le_joinNames _).trans bound
  have parsed := pathParse_remaining path
  have split := remaining_split (Fs.pathParse path).1 (Fs.pathParse path).2
  have some_byte : (Fs.pathParse path).1 ≠ [] := fun empty => some_name (by rw [← parsed, remaining, if_pos empty])
  have solid := pathParse_solid at_path.string.solid
  rw [← parsed] at few ⊢
  rw [pathDepthCnt, wp_bind, wp_assert]
  refine ⟨fun _ => ?_, fun null => (null nonnull).elim⟩
  rw [wp_bind]
  refine wp_mono (pathParse_spec h nonnull at_path (Nat.lt_of_succ_lt enough)) ?_ ?_
  · rintro a u ⟨short, reads, stored, names, after⟩
    have filled : u.name 0 = 0 ↔ (Fs.pathParse path).1 = [] := by
      rw [stored]
      exact iff_of_false (overlay_first some_byte solid) some_byte
    refine wp_mono (depthLoop_spec fuel nonnull _ _ a 0 u reads filled after
      (fun l eq => (pathParse_shorter eq).trans_lt (Nat.lt_of_succ_lt enough)) (few.trans_lt enough)) ?_ ?_
    · rintro r t ⟨others, reads, rfl, found⟩
      refine ⟨fun c mem => ?_, reads, UInt32.zero_add _, ?_⟩
      · rw [← split] at mem
        rcases List.mem_append.1 mem with here | later
        · rw [List.mem_singleton.1 (List.mem_filter.1 here).1]
          exact short
        · exact others c later
      · rw [found, ParseState.found, names, none_found, List.nil_append, split]
    · intro _ long all
      exact long fun c mem => all c (List.mem_of_mem_tail mem)
  · intro _ long all
    have here := all (Fs.pathParse path).1 (by rw [remaining, if_neg some_byte]; exact List.mem_cons_self)
    omega

/-- The call ends without a store outside the array, has read the path only, has stored its components
one after the other, and returns their number. -/
def SplitsPath (fuel p : Nat) (path : CStr) (s : ParseState) : Prop :=
  Succeeds (pathDepthCnt fuel p) (fun depth t => (∀ a ∈ t.reads, p ≤ a ∧ a ≤ p + path.length) ∧
    t.found = components path ∧ depth.toNat = (components path).length) s

/-- This is so exactly if no component is longer than the array, whatever the array holds before. -/
theorem path_depth_cnt_splits {fuel p : Nat} {path : CStr} {s : ParseState} (at_path : CString s.mem p path)
    (nonnull : p ≠ 0) (short : path.length < maxPathLen) (some_name : components path ≠ []) (no_reads : s.reads = [])
    (no_names : s.names = []) (enough : path.length + 1 < fuel) :
    SplitsPath fuel p path s ↔ ∀ c ∈ components path, c.length ≤ maxFileNameLen := by
  have start : Reads s.mem p (p + path.length) s := by
    refine ⟨rfl, ?_⟩
    rw [no_reads]
    exact fun _ impossible => (List.not_mem_nil impossible).elim
  refine succeeds_exact (wp_post (pathDepthCnt_spec start nonnull ⟨at_path, Nat.le_refl p, rfl⟩ some_name no_names enough) ?_)
  rintro depth t ⟨fits, reads, rfl, found⟩
  have bound := joinNames_length path
  rw [components_slash, List.length_cons] at bound
  have few := (length_le_joinNames (components path)).trans bound
  refine iff_of_true ⟨reads.inside, found, UInt32.toNat_ofNat_of_lt' ?_⟩ fits
  rw [maxPathLen] at short
  exact few.trans_lt (by rw [UInt32.size]; omega)

theorem cstring_overlay (solid : 0 ∉ l) : CString (overlay (fun _ => 0) p l) p l :=
  ⟨fun _ h => overlay_get h, overlay_of_not_mem (Or.inr (Nat.le_refl _)), solid⟩

/-- A path alone in memory, at 1, and an array of zeroes. -/
def pathAlone (path : CStr) : ParseState := ⟨overlay (fun _ => 0) 1 path, fun _ => 0, [], [], []⟩

theorem path_depth_cnt_splits_slashes : (CString (pathAlone [47, 47, 97, 47]).mem 1 [47, 47, 97, 47] ∧
      components [47, 47, 97, 47] ≠ []) ∧
    (SplitsPath 6 1 [47, 47, 97, 47] (pathAlone [47, 47, 97, 47]) ↔
      ∀ c ∈ components [47, 47, 97, 47], c.length ≤ maxFileNameLen) :=
  ⟨⟨cstring_overlay (by decide), by decide +kernel⟩, path_depth_cnt_splits (cstring_overlay (by decide)) (by decide) (by decide)
    (by decide +kernel) rfl rfl (by decide)⟩

/-- The 17 letters of a component are stored in an array of 16 bytes. -/
theorem path_depth_cnt_overflows : ¬∀ (fuel p : Nat) (path : CStr) (s : ParseState), CString s.mem p path → p ≠ 0 →
    path.length < maxPathLen → components path ≠ [] → s.reads = [] → s.names = [] → path.length + 1 < fuel →
      SplitsPath fuel p path s := by
  intro claim
  have holds := claim 20 1 (slash :: List.replicate 17 97) (pathAlone (slash :: List.replicate 17 97))
    (cstring_overlay (by decide)) (by decide) (by decide) (by decide +kernel) rfl rfl (by decide)
  obtain ⟨depth, t, run, -⟩ := succeeds_iff.1 holds
  have spec := @pathDepthCnt_spec (pathAlone (slash :: List.replicate 17 97)).mem 1 20 (1 + 18) (slash :: List.replicate 17 97)
    (pathAlone (slash :: List.replicate 17 97)) ⟨rfl, fun _ impossible => (List.not_mem_nil impossible).elim⟩ (by decide)
    ⟨cstring_overlay (by decide), Nat.le_refl 1, rfl⟩ (by decide +kernel) rfl (by decide)
  exact absurd ((wp_of_ok run).1 spec).1 (by decide +kernel)

end Zhenxiang.Fs.PathBytes
