/-
  xv6 formalization — the buffer cache (`bio.c`).

  Any number of clients get, use and release buffers at once.  A client is one use of a
  buffer, from `bread` to `brelse`; a process that has several buffers is several clients.
  What the code does while it has `bcache.lock` is one step; between these steps, and while
  a client has or waits for the sleep lock of a buffer, the others go on.  The list of
  buffers is kept as the code keeps it, by the fields `next` and `prev`.

  The state carries, besides the buffers and the disk, how often each buffer is pinned,
  when each was last put at the front of the list, and what each block should contain, that
  is, what a client has last put into a buffer of the block.  The disk of the model has a
  block for each `dev` and `blockno`; `virtio_disk_rw` looks at `blockno` only, for there is
  one disk.  `refcnt` is an `unsigned int` in the code and a natural number here; it counts
  the clients and the pins, which are taken to be fewer than 2^32.

  * `bget_lru`: the list has every buffer once, and `bget` returns the buffer of the block, or,
    when there is none, the unused buffer that was released longest ago; it panics only when
    all are in use;
  * `bread_coherent`: a buffer that is held is its client's only, is of the block that was
    asked for, and contains what the block should contain, as long as a buffer that is
    released is pinned or written to the disk.
-/
import CShell.Lib.DoublyLinked
import CShell.Lib.RefCount
import CShell.Lib.Steps
import CShell.Xv6.Mlfq
import Mathlib.Algebra.GroupWithZero.Nat
import Mathlib.Data.Fintype.Card
import Mathlib.Data.List.FinRange

namespace Xv6

open Lib

/-- `MAXOPBLOCKS` -/
def maxopblocks : ℕ := 10

/-- `NBUF` -/
def nbuf : ℕ := maxopblocks * 3

instance : NeZero nbuf := ⟨by decide⟩

/-- `struct buf`, without the lock and the links. -/
structure Buf (D : Type) where
  valid : Bool
  dev : ℕ
  blockno : ℕ
  refcnt : ℕ
  data : D

/-- The buffer is of the block. -/
def Buf.isOf {D : Type} (dev blockno : ℕ) (b : Buf D) : Bool := b.dev == dev && b.blockno == blockno

/-- `bcache` and the disk. -/
structure Bcache (C D : Type) where
  buf : Fin nbuf → Buf D
  links : Links (Fin nbuf)
  /-- who has the sleep lock -/
  lock : Fin nbuf → Option C
  disk : ℕ → ℕ → D
  pins : Fin nbuf → ℕ
  /-- when the buffer was put at the front of the list -/
  stamp : Fin nbuf → ℕ
  clock : ℕ
  /-- what each block should contain -/
  mem : ℕ → ℕ → D

/-- How far a client has come with its buffer. -/
inductive BioPhase where
  /-- `bget` has found the buffer -/
  | got
  /-- with the sleep lock -/
  | locked
  /-- the block has been read from the disk -/
  | filled
  /-- `bread` has returned -/
  | held
  /-- after `releasesleep` -/
  | unlocked
  deriving DecidableEq, Repr

/-- The client has the sleep lock. -/
def BioPhase.locks : BioPhase → Bool
  | .locked | .filled | .held => true
  | .got | .unlocked => false

/-- Where a client is. -/
inductive BioPc where
  | idle
  | at (phase : BioPhase) (b : Fin nbuf) (dev blockno : ℕ)
  /-- in the panic of `bget` -/
  | noBuffers
  /-- in the panic of `bwrite` or `brelse` -/
  | panic
  deriving DecidableEq, Repr

/-- The buffer a client uses. -/
def BioPc.buf : BioPc → Option (Fin nbuf)
  | .at _ b _ _ => some b
  | _ => none

@[simp]
theorem BioPc.buf_at (phase : BioPhase) (b : Fin nbuf) (dev blockno : ℕ) :
    (BioPc.at phase b dev blockno).buf = some b := rfl

@[simp]
theorem BioPc.buf_idle : BioPc.idle.buf = none := rfl

/-- The cache and its clients. -/
structure Bio (C D : Type) where
  cache : Bcache C D
  pc : C → BioPc

/-- What a client does. -/
inductive BioAct (C D : Type) where
  | bget (c : C) (dev blockno : ℕ)
  | acquiresleep (c : C)
  /-- `virtio_disk_rw`, if the buffer is not valid -/
  | read (c : C)
  | validate (c : C)
  | change (c : C) (v : D)
  | bwrite (c : C)
  | bpin (c : C)
  | bunpin (c : C)
  | releasesleep (c : C)
  | brelse (c : C)

section
variable {C D : Type}

namespace Bcache

/-- Assign to a buffer. -/
def update (b : Fin nbuf) (v : Buf D) (x : Bcache C D) : Bcache C D :=
  { x with buf := Function.update x.buf b v }

/-- The loop over the list from its front. -/
def find (dev blockno : ℕ) (x : Bcache C D) : Option (Fin nbuf) :=
  Links.search x.links.next (fun b => (x.buf b).isOf dev blockno) (nbuf + 1) (x.links.next none)

/-- The loop over the list from its back. -/
def victim (x : Bcache C D) : Option (Fin nbuf) :=
  Links.search x.links.prev (fun b => (x.buf b).refcnt == 0) (nbuf + 1) (x.links.prev none)

end Bcache

/-- `bget` up to the release of `bcache.lock`; `none` is the panic. -/
def bget (dev blockno : ℕ) (x : Bcache C D) : Option (Fin nbuf × Bcache C D) :=
  match x.find dev blockno with
  | some b => some (b, x.update b { x.buf b with refcnt := (x.buf b).refcnt + 1 })
  | none =>
    x.victim.map fun b => (b, x.update b ⟨false, dev, blockno, 1, (x.buf b).data⟩)

/-- `brelse` after `releasesleep`. -/
def brelse (b : Fin nbuf) (x : Bcache C D) : Bcache C D :=
  let x := x.update b { x.buf b with refcnt := (x.buf b).refcnt - 1 }
  if (x.buf b).refcnt = 0 then
    { x with
      links := (x.links.unlink b).pushFront b
      stamp := Function.update x.stamp b x.clock
      clock := x.clock + 1 }
  else x

/-- The links after `binit`. -/
def binit : Links (Fin nbuf) :=
  (List.finRange nbuf).foldl (fun L b => L.pushFront b) Links.empty

/-- After `binit`. -/
def Bio.init (disk : ℕ → ℕ → D) (data : D) : Bio C D where
  cache :=
    { buf := fun _ => ⟨false, 0, 0, 0, data⟩
      links := binit
      lock := fun _ => none
      disk := disk
      pins := fun _ => 0
      stamp := fun b => b
      clock := nbuf
      mem := disk }
  pc _ := .idle

variable [DecidableEq C]

/-- The client goes on, with the cache changed. -/
def Bio.goto (c : C) (pc : BioPc) (cache : Bcache C D) (s : Bio C D) : Bio C D :=
  ⟨cache, Function.update s.pc c pc⟩

/-- One step of a client. -/
def Bio.step (s : Bio C D) : BioAct C D → Option (Bio C D)
  | .bget c dev blockno =>
    match s.pc c with
    | .idle =>
      match bget dev blockno s.cache with
      | some (b, x) => some (s.goto c (.at .got b dev blockno) x)
      | none => some (s.goto c .noBuffers s.cache)
    | _ => none
  | .acquiresleep c =>
    match s.pc c with
    | .at .got b dev blockno =>
      if s.cache.lock b = none then
        some (s.goto c (.at .locked b dev blockno)
          { s.cache with lock := Function.update s.cache.lock b (some c) })
      else none
    | _ => none
  | .read c =>
    match s.pc c with
    | .at .locked b dev blockno =>
      if (s.cache.buf b).valid then some (s.goto c (.at .held b dev blockno) s.cache)
      else
        let v := s.cache.disk (s.cache.buf b).dev (s.cache.buf b).blockno
        some (s.goto c (.at .filled b dev blockno)
          (s.cache.update b { s.cache.buf b with data := v }))
    | _ => none
  | .validate c =>
    match s.pc c with
    | .at .filled b dev blockno =>
      some (s.goto c (.at .held b dev blockno)
        (s.cache.update b { s.cache.buf b with valid := true }))
    | _ => none
  | .change c v =>
    match s.pc c with
    | .at .held b dev blockno =>
      let x := s.cache.update b { s.cache.buf b with data := v }
      let row := Function.update (s.cache.mem dev) blockno v
      some (s.goto c (.at .held b dev blockno)
        { x with mem := Function.update s.cache.mem dev row })
    | _ => none
  | .bwrite c =>
    match s.pc c with
    | .at .held b dev blockno =>
      if s.cache.lock b = some c then
        let buf := s.cache.buf b
        let row := Function.update (s.cache.disk buf.dev) buf.blockno buf.data
        some (s.goto c (.at .held b dev blockno)
          { s.cache with disk := Function.update s.cache.disk buf.dev row })
      else some (s.goto c .panic s.cache)
    | _ => none
  | .bpin c =>
    match s.pc c with
    | .at .held b dev blockno =>
      let x := s.cache.update b { s.cache.buf b with refcnt := (s.cache.buf b).refcnt + 1 }
      some (s.goto c (.at .held b dev blockno)
        { x with pins := Function.update x.pins b (x.pins b + 1) })
    | _ => none
  | .bunpin c =>
    match s.pc c with
    | .at .held b dev blockno =>
      let x := s.cache.update b { s.cache.buf b with refcnt := (s.cache.buf b).refcnt - 1 }
      some (s.goto c (.at .held b dev blockno)
        { x with pins := Function.update x.pins b (x.pins b - 1) })
    | _ => none
  | .releasesleep c =>
    match s.pc c with
    | .at .held b dev blockno =>
      if s.cache.lock b = some c then
        some (s.goto c (.at .unlocked b dev blockno)
          { s.cache with lock := Function.update s.cache.lock b none })
      else some (s.goto c .panic s.cache)
    | _ => none
  | .brelse c =>
    match s.pc c with
    | .at .unlocked b _ _ => some (s.goto c .idle (brelse b s.cache))
    | _ => none

end

/-! ## The list -/

section
variable {C D : Type}

/-- The list has all buffers, the last released first. -/
def Bcache.Sorted (x : Bcache C D) : Prop :=
  (∀ b, x.stamp b < x.clock) ∧
    ∃ order, x.links.IsRing order ∧ (∀ b, b ∈ order) ∧
      order.Pairwise fun b b' => x.stamp b' < x.stamp b

theorem isRing_foldl_pushFront (l : List (Fin nbuf)) :
    ∀ (order : List (Fin nbuf)) (L : Links (Fin nbuf)), L.IsRing order →
      (order.reverse ++ l).Nodup → (l.foldl (fun L b => L.pushFront b) L).IsRing (l.reverse ++ order) := by
  induction l with
  | nil =>
    intro order L h _
    exact h
  | cons b l ih =>
    intro order L h hn
    rw [List.foldl_cons, List.reverse_cons, List.append_assoc, List.singleton_append]
    have hb : b ∉ order := by
      intro hb
      rw [List.nodup_append] at hn
      exact hn.2.2 b (List.mem_reverse.2 hb) b List.mem_cons_self rfl
    refine ih (b :: order) _ (h.pushFront hb) ?_
    rwa [List.reverse_cons, List.append_assoc, List.singleton_append]

theorem sorted_init (disk : ℕ → ℕ → D) (data : D) : (Bio.init (C := C) disk data).cache.Sorted := by
  refine ⟨fun b => b.isLt, (List.finRange nbuf).reverse, ?_, ?_, ?_⟩
  · have h := isRing_foldl_pushFront (List.finRange nbuf) [] Links.empty Links.isRing_empty
      (List.nodup_finRange nbuf)
    rwa [List.append_nil] at h
  · intro b
    exact List.mem_reverse.2 (List.mem_finRange b)
  · rw [List.pairwise_reverse]
    exact List.pairwise_lt_finRange nbuf

theorem Bcache.Sorted.brelse {x : Bcache C D} (h : x.Sorted) (b : Fin nbuf) :
    (brelse b x).Sorted := by
  obtain ⟨hclock, order, hring, hall, hsorted⟩ := h
  simp only [Xv6.brelse]
  split
  case isFalse => exact ⟨hclock, order, hring, hall, hsorted⟩
  case isTrue =>
    obtain ⟨l₁, l₂, rfl⟩ := List.append_of_mem (hall b)
    have hn := hring.nodup
    rw [List.nodup_middle, List.nodup_cons] at hn
    have hstamp : ∀ b' ∈ l₁ ++ l₂, Function.update x.stamp b x.clock b' = x.stamp b' := by
      intro b' hb'
      refine Function.update_of_ne ?_ _ _
      rintro rfl
      exact hn.1 hb'
    refine ⟨?_, b :: (l₁ ++ l₂), hring.unlink.pushFront hn.1, ?_, ?_⟩
    · intro b'
      by_cases hb' : b' = b
      · simp [hb', Bcache.update]
      · simp only [Bcache.update, Function.update_of_ne hb']
        exact Nat.lt_succ_of_lt (hclock b')
    · intro b'
      have hb' := hall b'
      simp only [List.mem_append, List.mem_cons] at hb' ⊢
      tauto
    · rw [List.pairwise_cons]
      constructor
      · intro b' hb'
        simp only [Bcache.update, hstamp b' hb', Function.update_self]
        exact hclock b'
      · have hsub : (l₁ ++ l₂).Sublist (l₁ ++ b :: l₂) :=
          List.Sublist.append_left (List.sublist_cons_self b l₂) l₁
        refine (hsorted.sublist hsub).imp_of_mem ?_
        intro b₁ b₂ h₁ h₂ hlt
        simp only [Bcache.update, hstamp b₁ h₁, hstamp b₂ h₂]
        exact hlt

theorem length_lt {order : List (Fin nbuf)} (h : order.Nodup) : order.length < nbuf + 1 := by
  have hle := List.Nodup.length_le_card h
  rw [Fintype.card_fin] at hle
  omega

theorem Bcache.Sorted.find_eq_some {x : Bcache C D} (h : x.Sorted) {dev blockno : ℕ}
    {b : Fin nbuf} (hb : x.find dev blockno = some b) : (x.buf b).isOf dev blockno = true := by
  obtain ⟨-, order, hring, -, -⟩ := h
  rw [Bcache.find, hring.search_next (length_lt hring.nodup)] at hb
  have hp := List.find?_some hb
  exact hp

theorem Bcache.Sorted.find_eq_none {x : Bcache C D} (h : x.Sorted) {dev blockno : ℕ}
    (hb : x.find dev blockno = none) (b : Fin nbuf) : (x.buf b).isOf dev blockno = false := by
  obtain ⟨-, order, hring, hall, -⟩ := h
  rw [Bcache.find, hring.search_next (length_lt hring.nodup), List.find?_eq_none] at hb
  exact Bool.eq_false_iff.2 (hb b (hall b))

/-- The buffer that is recycled is unused, and was released before every other one. -/
theorem Bcache.Sorted.victim_eq_some {x : Bcache C D} (h : x.Sorted) {b : Fin nbuf}
    (hb : x.victim = some b) :
    (x.buf b).refcnt = 0 ∧ ∀ b', (x.buf b').refcnt = 0 → x.stamp b ≤ x.stamp b' := by
  obtain ⟨-, order, hring, hall, hsorted⟩ := h
  rw [Bcache.victim, hring.search_prev (length_lt hring.nodup)] at hb
  obtain ⟨hzero, l₁, l₂, hsplit, hbefore⟩ := List.find?_eq_some_iff_append.1 hb
  refine ⟨beq_iff_eq.1 hzero, ?_⟩
  intro b' hb'
  have horder : order = l₂.reverse ++ b :: l₁.reverse := by
    rw [← List.reverse_reverse order, hsplit, List.reverse_append, List.reverse_cons,
      List.append_assoc, List.singleton_append]
  have hmem := hall b'
  rw [horder, List.mem_append, List.mem_cons] at hmem
  rw [horder, List.pairwise_append] at hsorted
  rcases hmem with hmem | rfl | hmem
  · exact (hsorted.2.2 b' hmem b List.mem_cons_self).le
  · exact Nat.le_refl _
  · have := hbefore b' (List.mem_reverse.1 hmem)
    rw [hb'] at this
    cases this

theorem Bcache.Sorted.victim_eq_none {x : Bcache C D} (h : x.Sorted) (hb : x.victim = none)
    (b : Fin nbuf) : (x.buf b).refcnt ≠ 0 := by
  obtain ⟨-, order, hring, hall, -⟩ := h
  rw [Bcache.victim, hring.search_prev (length_lt hring.nodup), List.find?_eq_none] at hb
  have := hb b (List.mem_reverse.2 (hall b))
  rwa [beq_iff_eq] at this

end

/-! ## Steps -/

section
variable {C D : Type} [DecidableEq C]

/-- The ways a step can go. -/
inductive Bio.Takes (s : Bio C D) : BioAct C D → Bio C D → Prop where
  | found {c dev blockno b} : s.pc c = .idle → s.cache.find dev blockno = some b →
      Takes s (.bget c dev blockno) (s.goto c (.at .got b dev blockno)
        (s.cache.update b { s.cache.buf b with refcnt := (s.cache.buf b).refcnt + 1 }))
  | recycle {c dev blockno b} : s.pc c = .idle → s.cache.find dev blockno = none →
      s.cache.victim = some b →
      Takes s (.bget c dev blockno) (s.goto c (.at .got b dev blockno)
        (s.cache.update b ⟨false, dev, blockno, 1, (s.cache.buf b).data⟩))
  | full {c dev blockno} : s.pc c = .idle → Takes s (.bget c dev blockno) (s.goto c .noBuffers s.cache)
  | acquire {c b dev blockno} : s.pc c = .at .got b dev blockno → s.cache.lock b = none →
      Takes s (.acquiresleep c) (s.goto c (.at .locked b dev blockno)
        { s.cache with lock := Function.update s.cache.lock b (some c) })
  | hit {c b dev blockno} : s.pc c = .at .locked b dev blockno → (s.cache.buf b).valid = true →
      Takes s (.read c) (s.goto c (.at .held b dev blockno) s.cache)
  | miss {c b dev blockno} : s.pc c = .at .locked b dev blockno → (s.cache.buf b).valid = false →
      Takes s (.read c) (s.goto c (.at .filled b dev blockno)
        (s.cache.update b { s.cache.buf b with
          data := s.cache.disk (s.cache.buf b).dev (s.cache.buf b).blockno }))
  | validate {c b dev blockno} : s.pc c = .at .filled b dev blockno →
      Takes s (.validate c) (s.goto c (.at .held b dev blockno)
        (s.cache.update b { s.cache.buf b with valid := true }))
  | change {c b dev blockno v} : s.pc c = .at .held b dev blockno →
      Takes s (.change c v) (s.goto c (.at .held b dev blockno)
        { s.cache.update b { s.cache.buf b with data := v } with
          mem := Function.update s.cache.mem dev (Function.update (s.cache.mem dev) blockno v) })
  | write {c b dev blockno} : s.pc c = .at .held b dev blockno → s.cache.lock b = some c →
      Takes s (.bwrite c) (s.goto c (.at .held b dev blockno)
        { s.cache with
          disk := Function.update s.cache.disk (s.cache.buf b).dev
            (Function.update (s.cache.disk (s.cache.buf b).dev) (s.cache.buf b).blockno
              (s.cache.buf b).data) })
  | badWrite {c b dev blockno} : s.pc c = .at .held b dev blockno → s.cache.lock b ≠ some c →
      Takes s (.bwrite c) (s.goto c .panic s.cache)
  | pin {c b dev blockno} : s.pc c = .at .held b dev blockno →
      Takes s (.bpin c) (s.goto c (.at .held b dev blockno)
        { s.cache.update b { s.cache.buf b with refcnt := (s.cache.buf b).refcnt + 1 } with
          pins := Function.update s.cache.pins b (s.cache.pins b + 1) })
  | unpin {c b dev blockno} : s.pc c = .at .held b dev blockno →
      Takes s (.bunpin c) (s.goto c (.at .held b dev blockno)
        { s.cache.update b { s.cache.buf b with refcnt := (s.cache.buf b).refcnt - 1 } with
          pins := Function.update s.cache.pins b (s.cache.pins b - 1) })
  | unlock {c b dev blockno} : s.pc c = .at .held b dev blockno → s.cache.lock b = some c →
      Takes s (.releasesleep c) (s.goto c (.at .unlocked b dev blockno)
        { s.cache with lock := Function.update s.cache.lock b none })
  | badUnlock {c b dev blockno} : s.pc c = .at .held b dev blockno → s.cache.lock b ≠ some c →
      Takes s (.releasesleep c) (s.goto c .panic s.cache)
  | release {c b dev blockno} : s.pc c = .at .unlocked b dev blockno →
      Takes s (.brelse c) (s.goto c .idle (brelse b s.cache))

theorem Bio.takes_of_step {s s' : Bio C D} {act : BioAct C D} (h : s.step act = some s') :
    s.Takes act s' := by
  cases act with
  | bget c dev blockno =>
    simp only [Bio.step] at h
    split at h
    case h_1 hpc =>
      simp only [bget] at h
      cases hf : s.cache.find dev blockno with
      | some b =>
        rw [hf] at h
        cases h
        exact .found hpc hf
      | none =>
        cases hv : s.cache.victim with
        | some b =>
          rw [hf, hv] at h
          cases h
          exact .recycle hpc hf hv
        | none =>
          rw [hf, hv] at h
          cases h
          exact .full hpc
    case h_2 => cases h
  | acquiresleep c =>
    simp only [Bio.step] at h
    split at h
    case h_1 hpc =>
      split at h
      case isTrue hl =>
        cases h
        exact .acquire hpc hl
      case isFalse => cases h
    case h_2 => cases h
  | read c =>
    simp only [Bio.step] at h
    split at h
    case h_1 hpc =>
      split at h
      case isTrue hv =>
        cases h
        exact .hit hpc hv
      case isFalse hv =>
        cases h
        exact .miss hpc (Bool.eq_false_iff.2 hv)
    case h_2 => cases h
  | validate c =>
    simp only [Bio.step] at h
    split at h
    case h_1 hpc =>
      cases h
      exact .validate hpc
    case h_2 => cases h
  | change c v =>
    simp only [Bio.step] at h
    split at h
    case h_1 hpc =>
      cases h
      exact .change hpc
    case h_2 => cases h
  | bwrite c =>
    simp only [Bio.step] at h
    split at h
    case h_1 hpc =>
      split at h
      case isTrue hl =>
        cases h
        exact .write hpc hl
      case isFalse hl =>
        cases h
        exact .badWrite hpc hl
    case h_2 => cases h
  | bpin c =>
    simp only [Bio.step] at h
    split at h
    case h_1 hpc =>
      cases h
      exact .pin hpc
    case h_2 => cases h
  | bunpin c =>
    simp only [Bio.step] at h
    split at h
    case h_1 hpc =>
      cases h
      exact .unpin hpc
    case h_2 => cases h
  | releasesleep c =>
    simp only [Bio.step] at h
    split at h
    case h_1 hpc =>
      split at h
      case isTrue hl =>
        cases h
        exact .unlock hpc hl
      case isFalse hl =>
        cases h
        exact .badUnlock hpc hl
    case h_2 => cases h
  | brelse c =>
    simp only [Bio.step] at h
    split at h
    case h_1 hpc =>
      cases h
      exact .release hpc
    case h_2 => cases h

theorem Bio.Takes.sorted {s s' : Bio C D} {act : BioAct C D} (h : s.Takes act s')
    (hs : s.cache.Sorted) : s'.cache.Sorted := by
  cases h with
  | release => exact hs.brelse _
  | _ => exact hs

/-- **`bget` recycles the least recently used buffer**: whatever the clients have done, the list
    has every buffer once, the last released first, and `bget` returns the buffer of the block if
    there is one; if not, the buffer that was put at the
    front of the list longest ago among those that nobody uses; and it panics only if there
    is neither. -/
theorem bget_lru {disk : ℕ → ℕ → D} {data : D} {s : Bio C D}
    (h : Reachable Bio.step (Bio.init disk data) s) (dev blockno : ℕ) :
    s.cache.Sorted ∧
    match bget dev blockno s.cache with
    | some (b, x) =>
      (x.buf b).isOf dev blockno = true ∧
        ((s.cache.buf b).isOf dev blockno = true ∨
          (∀ b', (s.cache.buf b').isOf dev blockno = false) ∧ (s.cache.buf b).refcnt = 0 ∧
            ∀ b', (s.cache.buf b').refcnt = 0 → s.cache.stamp b ≤ s.cache.stamp b')
    | none => ∀ b', (s.cache.buf b').isOf dev blockno = false ∧ (s.cache.buf b').refcnt ≠ 0 := by
  have hsorted : s.cache.Sorted :=
    h.invariant (sorted_init disk data) fun _ _ _ hs _ hstep => (Bio.takes_of_step hstep).sorted hs
  refine ⟨hsorted, ?_⟩
  rw [bget]
  cases hf : s.cache.find dev blockno with
  | some b =>
    have hb := hsorted.find_eq_some hf
    refine ⟨?_, .inl hb⟩
    simp only [Bcache.update, Function.update_self]
    exact hb
  | none =>
    have hnone := hsorted.find_eq_none hf
    cases hv : s.cache.victim with
    | some b =>
      refine ⟨?_, .inr ⟨hnone, hsorted.victim_eq_some hv⟩⟩
      simp [Bcache.update, Buf.isOf]
    | none => exact fun b' => ⟨hnone b', hsorted.victim_eq_none hv b'⟩

/-- A client reads block 7, changes it, writes it and releases it. -/
def useBlock : List (BioAct Slot ℕ) :=
  [.bget 0 1 7, .acquiresleep 0, .read 0, .validate 0, .change 0 5, .bwrite 0, .releasesleep 0,
    .brelse 0]

/-- For block 8 the last buffer of the list is taken, which is no longer the one just
    used. -/
theorem bget_lru_useBlock :
    ∃ (s : Bio Slot ℕ) (x : Bcache Slot ℕ),
      Reachable Bio.step (Bio.init (fun _ _ => 0) 0) s ∧ s.cache.Sorted ∧
      bget 1 8 s.cache = some (1, x) ∧ (x.buf 1).isOf 1 8 = true ∧
      ((s.cache.buf 1).isOf 1 8 = true ∨
        (∀ b', (s.cache.buf b').isOf 1 8 = false) ∧ (s.cache.buf 1).refcnt = 0 ∧
          ∀ b', (s.cache.buf b').refcnt = 0 → s.cache.stamp 1 ≤ s.cache.stamp b') := by
  have hfacts : (Lib.run Bio.step useBlock (Bio.init (fun _ _ => 0) 0)).bind (fun s =>
      (bget 1 8 s.cache).map Prod.fst) = some 1 := by decide +kernel
  obtain ⟨s, hs, hfacts⟩ := Option.bind_eq_some_iff.1 hfacts
  obtain ⟨⟨b, x⟩, hb, rfl⟩ := Option.map_eq_some_iff.1 hfacts
  have hreach := Reachable.of_run useBlock hs
  obtain ⟨hsorted, hlru⟩ := bget_lru hreach 1 8
  rw [hb] at hlru
  exact ⟨s, x, hreach, hsorted, hb, hlru⟩

end

/-! ## What the buffers contain -/

section
variable {C D : Type} [DecidableEq C]

/-- The clients use devices that exist, unpin what is pinned, and release a buffer that is
    not pinned only when it is as on the disk. -/
def BioGuard (s : Bio C D) : BioAct C D → Prop
  | .bget _ dev _ => dev ≠ 0
  | .bunpin c => ∀ b ∈ (s.pc c).buf, s.cache.pins b ≠ 0
  | .releasesleep c => ∀ b ∈ (s.pc c).buf, s.cache.pins b = 0 →
      (s.cache.buf b).data = s.cache.disk (s.cache.buf b).dev (s.cache.buf b).blockno
  | _ => True

instance [DecidableEq D] (s : Bio C D) : (act : BioAct C D) → Decidable (BioGuard s act)
  | .bget _ dev _ => inferInstanceAs (Decidable (dev ≠ 0))
  | .bunpin c => inferInstanceAs (Decidable (∀ b ∈ (s.pc c).buf, _))
  | .releasesleep c => inferInstanceAs (Decidable (∀ b ∈ (s.pc c).buf, _ → _))
  | .acquiresleep _ | .read _ | .validate _ | .change _ _ | .bwrite _ | .bpin _ | .brelse _ =>
    isTrue trivial

variable [Fintype C]

/-- What a client can rely on. -/
def Bcache.Serves (x : Bcache C D) (c : C) : BioPc → Prop
  | .at ph b dev blockno =>
    ((x.buf b).dev = dev ∧ (x.buf b).blockno = blockno ∧ dev ≠ 0) ∧
      (x.lock b = some c ↔ ph.locks = true) ∧ (ph = .held → (x.buf b).valid = true) ∧
      (ph = .filled → (x.buf b).valid = false ∧ (x.buf b).data = x.mem dev blockno)
  | .panic => False
  | .idle | .noBuffers => True

/-- The invariant of the cache. -/
structure Bio.Ok (s : Bio C D) : Prop where
  sorted : s.cache.Sorted
  refs : ∀ b, (s.cache.buf b).refcnt = refs (fun c => (s.pc c).buf) b + s.cache.pins b
  /-- no two buffers of one block -/
  unique : ∀ b b', (s.cache.buf b).dev ≠ 0 → (s.cache.buf b').dev = (s.cache.buf b).dev →
    (s.cache.buf b').blockno = (s.cache.buf b).blockno → b' = b
  serves : ∀ c, s.cache.Serves c (s.pc c)
  lock : ∀ b c, s.cache.lock b = some c → (s.pc c).buf = some b
  data : ∀ b, (s.cache.buf b).valid = true →
    (s.cache.buf b).data = s.cache.mem (s.cache.buf b).dev (s.cache.buf b).blockno
  /-- a block without a valid buffer is on the disk -/
  disk : ∀ dev blockno,
    (∀ b, (s.cache.buf b).dev = dev → (s.cache.buf b).blockno = blockno →
      (s.cache.buf b).valid = false) → s.cache.disk dev blockno = s.cache.mem dev blockno
  /-- a buffer that may be recycled is as on the disk -/
  clean : ∀ b, (s.cache.buf b).valid = true → s.cache.lock b = none → s.cache.pins b = 0 →
    (s.cache.buf b).data = s.cache.disk (s.cache.buf b).dev (s.cache.buf b).blockno

omit [DecidableEq C] in
theorem Bio.ok_init (disk : ℕ → ℕ → D) (data : D) : (Bio.init (C := C) disk data).Ok where
  sorted := sorted_init disk data
  refs := by
    intro b
    refine (refs_eq_zero.2 ?_).symm
    exact fun _ h => by cases h
  unique := fun _ _ h => absurd rfl h
  serves := fun _ => trivial
  lock := fun _ _ h => by cases h
  data := fun _ h => by cases h
  disk := fun _ _ _ => rfl
  clean := fun _ h => by cases h

omit [DecidableEq C] [Fintype C] in
theorem Buf.isOf_iff {b : Buf D} {dev blockno : ℕ} :
    b.isOf dev blockno = true ↔ b.dev = dev ∧ b.blockno = blockno := by
  simp [Buf.isOf]

omit [Fintype C] in
@[simp]
theorem Bio.goto_cache (s : Bio C D) (c : C) (pc : BioPc) (x : Bcache C D) :
    (s.goto c pc x).cache = x := rfl

omit [Fintype C] in
@[simp]
theorem Bio.goto_pc_self (s : Bio C D) (c : C) (pc : BioPc) (x : Bcache C D) :
    (s.goto c pc x).pc c = pc := Function.update_self ..

omit [Fintype C] in
theorem Bio.goto_pc_of_ne (s : Bio C D) {c u : C} (pc : BioPc) (x : Bcache C D) (hu : u ≠ c) :
    (s.goto c pc x).pc u = s.pc u := Function.update_of_ne hu _ _

namespace Bio.Ok

variable {s : Bio C D} {x : Bcache C D} {c u : C} {pc : BioPc} {b : Fin nbuf} {dev blockno : ℕ}
  {ph ph' : BioPhase}

/-- The clients' buffers after a step of one of them. -/
theorem refs_goto (s : Bio C D) (c : C) (pc : BioPc) (x : Bcache C D) (b : Fin nbuf) :
    Lib.refs (fun u => ((s.goto c pc x).pc u).buf) b + counts (s.pc c).buf b =
      Lib.refs (fun u => (s.pc u).buf) b + counts pc.buf b := by
  have h : (fun u => ((s.goto c pc x).pc u).buf) =
      Function.update (fun u => (s.pc u).buf) c pc.buf := by
    ext1 u
    by_cases hu : u = c
    · simp [hu]
    · rw [Bio.goto_pc_of_ne s pc x hu, Function.update_of_ne hu]
  rw [h]
  exact refs_update _ c pc.buf b

omit [DecidableEq C] in
theorem own (h : s.Ok) (hc : s.pc c = .at ph b dev blockno) :
    (s.cache.buf b).dev = dev ∧ (s.cache.buf b).blockno = blockno ∧ dev ≠ 0 := by
  have hserves := h.serves c
  rw [hc] at hserves
  exact hserves.1

omit [DecidableEq C] in
theorem lock_iff (h : s.Ok) (hc : s.pc c = .at ph b dev blockno) :
    s.cache.lock b = some c ↔ ph.locks = true := by
  have hserves := h.serves c
  rw [hc] at hserves
  exact hserves.2.1

/-- The other clients are served as before. -/
theorem serves_goto (h : s.Ok) (hc : x.Serves c pc)
    (hbuf : ∀ u ph b dev blockno, u ≠ c → s.pc u = .at ph b dev blockno →
      (x.buf b).dev = (s.cache.buf b).dev ∧ (x.buf b).blockno = (s.cache.buf b).blockno ∧
        (x.lock b = some u ↔ s.cache.lock b = some u) ∧
        (ph.locks = true → (x.buf b).valid = (s.cache.buf b).valid ∧
          (x.buf b).data = (s.cache.buf b).data ∧ x.mem dev blockno = s.cache.mem dev blockno))
    (u : C) : (s.goto c pc x).cache.Serves u ((s.goto c pc x).pc u) := by
  by_cases hu : u = c
  · rw [hu, Bio.goto_pc_self]
    exact hc
  · rw [Bio.goto_pc_of_ne s pc x hu, Bio.goto_cache]
    have hserves := h.serves u
    cases hpc : s.pc u with
    | «at» ph b dev blockno =>
      rw [hpc] at hserves
      obtain ⟨hown, hlock, hheld, hfilled⟩ := hserves
      obtain ⟨hdev, hblockno, hlock', hsame⟩ := hbuf u ph b dev blockno hu hpc
      refine ⟨?_, hlock'.trans hlock, ?_, ?_⟩
      · rw [hdev, hblockno]
        exact hown
      · rintro rfl
        rw [(hsame rfl).1]
        exact hheld rfl
      · rintro rfl
        obtain ⟨hv, hd, hm⟩ := hsame rfl
        rw [hv, hd, hm]
        exact hfilled rfl
    | panic =>
      rw [hpc] at hserves
      exact hserves.elim
    | idle => trivial
    | noBuffers => trivial

/-- A client moves on, and the counts, the links and the times of the buffers change. -/
theorem recount (h : s.Ok) {refcnt : Fin nbuf → ℕ} {links : Links (Fin nbuf)}
    {stamp : Fin nbuf → ℕ} {clock : ℕ}
    (hx : x = { s.cache with
      buf := fun b => { s.cache.buf b with refcnt := refcnt b }
      links := links
      stamp := stamp
      clock := clock })
    (hsorted : x.Sorted)
    (hrefs : ∀ b, refcnt b + counts (s.pc c).buf b = (s.cache.buf b).refcnt + counts pc.buf b)
    (hserves : x.Serves c pc) (hlock : ∀ b, s.cache.lock b = some c → pc.buf = some b) :
    (s.goto c pc x).Ok := by
  have hcount : ∀ b, (x.buf b).refcnt =
      Lib.refs (fun u => ((s.goto c pc x).pc u).buf) b + x.pins b := by
    intro b
    have hr := refs_goto s c pc x b
    have hold := h.refs b
    have hnew := hrefs b
    rw [show (x.buf b).refcnt = refcnt b by rw [hx], show x.pins = s.cache.pins by rw [hx]]
    omega
  refine ⟨hsorted, hcount, ?_, h.serves_goto hserves ?_, ?_, ?_, ?_, ?_⟩ <;> subst hx
  · exact h.unique
  · intro u ph b dev blockno _ _
    exact ⟨rfl, rfl, Iff.rfl, fun _ => ⟨rfl, rfl, rfl⟩⟩
  · intro b u hu
    by_cases huc : u = c
    · rw [huc, Bio.goto_pc_self]
      exact hlock b (huc ▸ hu)
    · rw [Bio.goto_pc_of_ne s pc _ huc]
      exact h.lock b u hu
  · exact h.data
  · exact h.disk
  · exact h.clean

/-- A client that has a buffer, with the lock or taking it, changes the buffer, its lock or
    its block. -/
theorem stay (h : s.Ok) (hc : s.pc c = .at ph b dev blockno)
    (hl : s.cache.lock b = none ∨ s.cache.lock b = some c) (hsorted : x.Sorted)
    (hlock : x.lock = Function.update s.cache.lock b (if ph'.locks then some c else none))
    (hbuf : ∀ b', b' ≠ b → x.buf b' = s.cache.buf b' ∧ x.pins b' = s.cache.pins b')
    (hdev : (x.buf b).dev = dev) (hblockno : (x.buf b).blockno = blockno)
    (hrefs : (x.buf b).refcnt + s.cache.pins b = (s.cache.buf b).refcnt + x.pins b)
    (hother : ∀ d k, (d = dev → k ≠ blockno) →
      x.disk d k = s.cache.disk d k ∧ x.mem d k = s.cache.mem d k)
    (hheld : ph' = .held → (x.buf b).valid = true)
    (hfilled : ph' = .filled → (x.buf b).valid = false ∧ (x.buf b).data = x.mem dev blockno)
    (hdata : (x.buf b).valid = true → (x.buf b).data = x.mem dev blockno)
    (hdisk : (x.buf b).valid = false → x.disk dev blockno = x.mem dev blockno)
    (hclean : (x.buf b).valid = true → ph'.locks = false → x.pins b = 0 →
      (x.buf b).data = x.disk dev blockno) :
    (s.goto c (.at ph' b dev blockno) x).Ok := by
  obtain ⟨hd, hk, hne⟩ := h.own hc
  -- the other buffers are of other blocks
  have hblocks : ∀ b', b' ≠ b →
      ((s.cache.buf b').dev = dev → (s.cache.buf b').blockno ≠ blockno) := by
    intro b' hb' hd' hk'
    exact hb' (h.unique b b' (hd ▸ hne) (hd'.trans hd.symm) (hk'.trans hk.symm))
  have hlocks : x.lock b = if ph'.locks then some c else none := by
    rw [hlock, Function.update_self]
  refine ⟨hsorted, ?_, ?_, h.serves_goto ⟨⟨hdev, hblockno, hne⟩, ?_, hheld, hfilled⟩ ?_, ?_, ?_, ?_, ?_⟩
  · intro b'
    have hr := refs_goto s c (.at ph' b dev blockno) x b'
    rw [hc] at hr
    have hr := Nat.add_right_cancel hr
    have hold := h.refs b'
    rw [Bio.goto_cache, hr]
    by_cases hb' : b' = b
    · rw [hb'] at hold ⊢
      omega
    · rw [(hbuf b' hb').1, (hbuf b' hb').2]
      exact hold
  · intro b₁ b₂ hne₁ hd₁ hk₁
    rw [Bio.goto_cache] at hne₁ hd₁ hk₁
    by_cases h₁ : b₁ = b
    · by_cases h₂ : b₂ = b
      · rw [h₁, h₂]
      · rw [h₁, hdev, (hbuf b₂ h₂).1] at hd₁
        rw [h₁, hblockno, (hbuf b₂ h₂).1] at hk₁
        exact absurd hk₁ (hblocks b₂ h₂ hd₁)
    · rw [(hbuf b₁ h₁).1] at hne₁ hd₁ hk₁
      by_cases h₂ : b₂ = b
      · rw [h₂, hdev] at hd₁
        rw [h₂, hblockno] at hk₁
        exact absurd hk₁.symm (hblocks b₁ h₁ hd₁.symm)
      · rw [(hbuf b₂ h₂).1] at hd₁ hk₁
        exact h.unique b₁ b₂ hne₁ hd₁ hk₁
  · rw [hlocks]
    cases ph'.locks <;> simp
  · intro u phu bu d k hu hpc
    by_cases hbu : bu = b
    · -- who waits for the buffer does not have its lock, nor has had it
      rw [hbu] at hpc ⊢
      have hnot : s.cache.lock b ≠ some u := by
        rcases hl with hl | hl <;> rw [hl]
        · exact fun heq => by cases heq
        · exact fun heq => hu (Option.some.inj heq).symm
      refine ⟨hdev.trans hd.symm, hblockno.trans hk.symm, iff_of_false ?_ hnot, ?_⟩
      · rw [hlocks]
        intro hif
        split at hif
        · exact hu (Option.some.inj hif).symm
        · cases hif
      · intro hph
        exact absurd ((h.lock_iff hpc).2 hph) hnot
    · obtain ⟨hd', hk', -⟩ := h.own hpc
      have hblock := hblocks bu hbu
      rw [hd', hk'] at hblock
      rw [(hbuf bu hbu).1, hlock, Function.update_of_ne hbu]
      exact ⟨rfl, rfl, Iff.rfl, fun _ => ⟨rfl, rfl, (hother d k hblock).2⟩⟩
  · intro bu u hu
    rw [Bio.goto_cache] at hu
    by_cases hbu : bu = b
    · rw [hbu, hlocks] at hu
      split at hu
      · rw [← Option.some.inj hu, Bio.goto_pc_self, hbu]
        rfl
      · cases hu
    · rw [hlock, Function.update_of_ne hbu] at hu
      have hold := h.lock bu u hu
      rw [Bio.goto_pc_of_ne s _ x ?_]
      · exact hold
      · rintro rfl
        rw [hc] at hold
        exact hbu (Option.some.inj hold).symm
  · intro bu hv
    rw [Bio.goto_cache] at hv ⊢
    by_cases hbu : bu = b
    · rw [hbu] at hv ⊢
      rw [hdev, hblockno]
      exact hdata hv
    · rw [(hbuf bu hbu).1] at hv ⊢
      rw [(hother _ _ (hblocks bu hbu)).2]
      exact h.data bu hv
  · intro d k hall
    rw [Bio.goto_cache] at hall ⊢
    by_cases hdk : d = dev ∧ k = blockno
    · obtain ⟨rfl, rfl⟩ := hdk
      exact hdisk (hall b hdev hblockno)
    · have hdk' : d = dev → k ≠ blockno := fun h₁ h₂ => hdk ⟨h₁, h₂⟩
      rw [(hother d k hdk').1, (hother d k hdk').2]
      refine h.disk d k fun bu hd' hk' => ?_
      have hbu : bu ≠ b := by
        rintro rfl
        exact hdk' (hd'.symm.trans hd) (hk'.symm.trans hk)
      have hv := hall bu
      rw [(hbuf bu hbu).1] at hv
      exact hv hd' hk'
  · intro bu hv hn hp
    rw [Bio.goto_cache] at hv hn hp ⊢
    by_cases hbu : bu = b
    · rw [hbu] at hv hn hp ⊢
      rw [hdev, hblockno]
      refine hclean hv ?_ hp
      rw [hlocks] at hn
      rcases hp' : ph'.locks with _ | _
      · rfl
      · rw [hp'] at hn
        cases hn
    · rw [hlock, Function.update_of_ne hbu] at hn
      rw [(hbuf bu hbu).1] at hv ⊢
      rw [(hbuf bu hbu).2] at hp
      rw [(hother _ _ (hblocks bu hbu)).1]
      exact h.clean bu hv hn hp

omit [DecidableEq C] in
/-- Nobody uses a buffer of count 0. -/
theorem unused (h : s.Ok) (hb : (s.cache.buf b).refcnt = 0) :
    (∀ u, (s.pc u).buf ≠ some b) ∧ s.cache.pins b = 0 ∧ s.cache.lock b = none := by
  have hrefs := h.refs b
  rw [hb] at hrefs
  have hnobody := refs_eq_zero.1 (show Lib.refs (fun c => (s.pc c).buf) b = 0 by omega)
  refine ⟨hnobody, by omega, ?_⟩
  rcases hl : s.cache.lock b with _ | u
  · rfl
  · exact absurd (h.lock b u hl) (hnobody u)

/-- A buffer is recycled. -/
theorem recycle (h : s.Ok) (hc : s.pc c = .idle) (hdev : dev ≠ 0)
    (hf : s.cache.find dev blockno = none) (hv : s.cache.victim = some b) :
    (s.goto c (.at .got b dev blockno)
      (s.cache.update b ⟨false, dev, blockno, 1, (s.cache.buf b).data⟩)).Ok := by
  have hnone : ∀ b', (s.cache.buf b').dev = dev → (s.cache.buf b').blockno ≠ blockno := by
    intro b' hd hk
    have := h.sorted.find_eq_none hf b'
    rw [Buf.isOf, hd, hk] at this
    simp at this
  have hzero := (h.sorted.victim_eq_some hv).1
  obtain ⟨hnobody, hpins, hlock⟩ := h.unused hzero
  obtain ⟨x, hx⟩ : ∃ x, x = s.cache.update b ⟨false, dev, blockno, 1, (s.cache.buf b).data⟩ :=
    ⟨_, rfl⟩
  rw [← hx]
  have hbuf : ∀ b', b' ≠ b → x.buf b' = s.cache.buf b' := by
    intro b' hb'
    rw [hx]
    exact Function.update_of_ne hb' _ _
  have hself : x.buf b = ⟨false, dev, blockno, 1, (s.cache.buf b).data⟩ := by
    rw [hx]
    exact Function.update_self ..
  have hrest : x.lock = s.cache.lock ∧ x.disk = s.cache.disk ∧ x.mem = s.cache.mem ∧
      x.pins = s.cache.pins := by
    rw [hx]
    exact ⟨rfl, rfl, rfl, rfl⟩
  have hsorted : x.Sorted := by
    rw [hx]
    exact h.sorted
  refine ⟨hsorted, ?_, ?_, h.serves_goto ?_ ?_, ?_, ?_, ?_, ?_⟩
  · intro b'
    have hr := refs_goto s c (.at .got b dev blockno) x b'
    have hold := h.refs b'
    rw [hc, BioPc.buf_idle, counts_none, BioPc.buf_at] at hr
    rw [Bio.goto_cache, hrest.2.2.2]
    by_cases hb' : b' = b
    · rw [hb'] at hr hold ⊢
      rw [counts_self] at hr
      rw [hself]
      simp only
      omega
    · rw [counts_of_ne hb'] at hr
      rw [hbuf b' hb']
      omega
  · intro b₁ b₂ hne hd hk
    rw [Bio.goto_cache] at hne hd hk
    by_cases h₁ : b₁ = b
    · by_cases h₂ : b₂ = b
      · rw [h₁, h₂]
      · rw [h₁, hself, hbuf b₂ h₂] at hd hk
        exact absurd hk (hnone b₂ hd)
    · rw [hbuf b₁ h₁] at hne hd hk
      by_cases h₂ : b₂ = b
      · rw [h₂, hself] at hd hk
        exact absurd hk.symm (hnone b₁ hd.symm)
      · rw [hbuf b₂ h₂] at hd hk
        exact h.unique b₁ b₂ hne hd hk
  · refine ⟨?_, ?_, fun h => (by cases h), fun h => by cases h⟩
    · rw [hself]
      exact ⟨rfl, rfl, hdev⟩
    · rw [hrest.1, hlock]
      exact iff_of_false (fun h => by cases h) (fun h => by cases h)
  · intro u ph b' d k _ hpc
    -- the others use other buffers
    have hb' : b' ≠ b := by
      rintro rfl
      exact hnobody u (by rw [hpc]; rfl)
    rw [hbuf b' hb', hrest.1, hrest.2.2.1]
    exact ⟨rfl, rfl, Iff.rfl, fun _ => ⟨rfl, rfl, rfl⟩⟩
  · intro b' u hu
    rw [Bio.goto_cache, hrest.1] at hu
    have hold := h.lock b' u hu
    rw [Bio.goto_pc_of_ne s _ x ?_]
    · exact hold
    · rintro rfl
      rw [hc] at hold
      cases hold
  · intro b' hvalid
    rw [Bio.goto_cache] at hvalid ⊢
    have hb' : b' ≠ b := by
      rintro rfl
      rw [hself] at hvalid
      cases hvalid
    rw [hbuf b' hb'] at hvalid ⊢
    rw [hrest.2.2.1]
    exact h.data b' hvalid
  · intro d k hall
    rw [Bio.goto_cache, hrest.2.1, hrest.2.2.1] at *
    -- the old block of the buffer is on the disk, whether the buffer was valid or not
    by_cases hold : (s.cache.buf b).valid = true ∧ (s.cache.buf b).dev = d ∧
        (s.cache.buf b).blockno = k
    · obtain ⟨hvalid, rfl, rfl⟩ := hold
      rw [← h.clean b hvalid hlock hpins, h.data b hvalid]
    · refine h.disk d k fun b' hd hk => ?_
      by_cases hb' : b' = b
      · rw [hb'] at hd hk ⊢
        exact Bool.eq_false_iff.2 fun hvalid => hold ⟨hvalid, hd, hk⟩
      · have hv' := hall b'
        rw [hbuf b' hb'] at hv'
        exact hv' hd hk
  · intro b' hvalid hn hp
    rw [Bio.goto_cache] at hvalid hn hp ⊢
    have hb' : b' ≠ b := by
      rintro rfl
      rw [hself] at hvalid
      cases hvalid
    rw [hbuf b' hb'] at hvalid ⊢
    rw [hrest.1] at hn
    rw [hrest.2.2.2] at hp
    rw [hrest.2.1]
    exact h.clean b' hvalid hn hp

omit [DecidableEq C] [Fintype C] in
theorem update_refcnt (b : Fin nbuf) (n : ℕ) (x : Bcache C D) :
    x.update b { x.buf b with refcnt := n } =
      { x with buf := fun b' => { x.buf b' with
          refcnt := Function.update (fun b => (x.buf b).refcnt) b n b' } } := by
  rw [Bcache.update, Bcache.mk.injEq]
  refine ⟨?_, rfl, rfl, rfl, rfl, rfl, rfl, rfl⟩
  ext1 b'
  by_cases hb' : b' = b
  · rw [hb', Function.update_self, Function.update_self]
  · rw [Function.update_of_ne hb', Function.update_of_ne hb']

omit [DecidableEq C] [Fintype C] in
theorem brelse_eq (b : Fin nbuf) (x : Bcache C D) :
    ∃ links stamp clock, brelse b x =
      { x with
        buf := fun b' => { x.buf b' with
          refcnt := Function.update (fun b => (x.buf b).refcnt) b ((x.buf b).refcnt - 1) b' }
        links := links
        stamp := stamp
        clock := clock } := by
  rw [brelse, update_refcnt]
  by_cases hz : ((x.update b { x.buf b with refcnt := (x.buf b).refcnt - 1 }).buf b).refcnt = 0
  · rw [update_refcnt] at hz
    simp only [if_pos hz]
    exact ⟨_, _, _, rfl⟩
  · rw [update_refcnt] at hz
    simp only [if_neg hz]
    exact ⟨_, _, _, rfl⟩

omit [DecidableEq C] in
theorem not_lock (h : s.Ok) (hc : (s.pc c).buf = none) (b : Fin nbuf) : s.cache.lock b ≠ some c := by
  intro hl
  rw [h.lock b c hl] at hc
  cases hc

omit [DecidableEq C] in
/-- The block of a buffer that is not valid is on the disk. -/
theorem disk_of_invalid (h : s.Ok) (hc : s.pc c = .at ph b dev blockno)
    (hv : (s.cache.buf b).valid = false) : s.cache.disk dev blockno = s.cache.mem dev blockno := by
  obtain ⟨hd, hk, hne⟩ := h.own hc
  refine h.disk dev blockno fun b' hd' hk' => ?_
  rw [h.unique b b' (hd ▸ hne) (hd'.trans hd.symm) (hk'.trans hk.symm)]
  exact hv

omit [DecidableEq C] in
theorem data_of_valid (h : s.Ok) (hc : s.pc c = .at ph b dev blockno)
    (hv : (s.cache.buf b).valid = true) : (s.cache.buf b).data = s.cache.mem dev blockno := by
  obtain ⟨hd, hk, -⟩ := h.own hc
  have hdata := h.data b hv
  rwa [hd, hk] at hdata

omit [DecidableEq C] in
theorem valid_of_held (h : s.Ok) (hc : s.pc c = .at .held b dev blockno) :
    (s.cache.buf b).valid = true := by
  have hserves := h.serves c
  rw [hc] at hserves
  exact hserves.2.2.1 rfl

/-- A client with the lock changes the buffer or its block. -/
theorem keep (h : s.Ok) (hc : s.pc c = .at ph b dev blockno) (hph : ph.locks = true)
    (hph' : ph'.locks = true) (hsorted : x.Sorted) (hlock : x.lock = s.cache.lock)
    (hbuf : ∀ b', b' ≠ b → x.buf b' = s.cache.buf b' ∧ x.pins b' = s.cache.pins b')
    (hdev : (x.buf b).dev = dev) (hblockno : (x.buf b).blockno = blockno)
    (hrefs : (x.buf b).refcnt + s.cache.pins b = (s.cache.buf b).refcnt + x.pins b)
    (hother : ∀ d k, (d = dev → k ≠ blockno) →
      x.disk d k = s.cache.disk d k ∧ x.mem d k = s.cache.mem d k)
    (hheld : ph' = .held → (x.buf b).valid = true ∧ (x.buf b).data = x.mem dev blockno)
    (hfilled : ph' = .filled → (x.buf b).valid = false ∧
      (x.buf b).data = x.mem dev blockno ∧ x.disk dev blockno = x.mem dev blockno)
    (hph'' : ph' ≠ .locked) :
    (s.goto c (.at ph' b dev blockno) x).Ok := by
  have hl := (h.lock_iff hc).2 hph
  have hvalid : (x.buf b).valid = true ↔ ph' = .held := by
    constructor
    · intro hv
      cases ph' with
      | held => rfl
      | filled =>
        rw [(hfilled rfl).1] at hv
        cases hv
      | locked => exact absurd rfl hph''
      | _ => cases hph'
    · exact fun heq => (hheld heq).1
  refine h.stay hc (.inr hl) hsorted ?_ hbuf hdev hblockno hrefs hother (fun heq => (hheld heq).1)
    (fun heq => ⟨(hfilled heq).1, (hfilled heq).2.1⟩) ?_ ?_ ?_
  · rw [hph', if_pos rfl, ← hl, Function.update_eq_self]
    exact hlock
  · exact fun hv => (hheld (hvalid.1 hv)).2
  · intro hv
    cases ph' with
    | filled => exact (hfilled rfl).2.2
    | held =>
      rw [(hheld rfl).1] at hv
      cases hv
    | locked => exact absurd rfl hph''
    | _ => cases hph'
  · intro _ hno
    rw [hph'] at hno
    cases hno

/-- **Every step of the clients keeps the buffers coherent.** -/
theorem step (h : s.Ok) {s' : Bio C D} {act : BioAct C D} (hg : BioGuard s act)
    (hs : s.step act = some s') : s'.Ok := by
  have ht := Bio.takes_of_step hs
  have hsorted := ht.sorted h.sorted
  cases ht with
  | @found c dev blockno b hc hf =>
    obtain ⟨hd, hk⟩ := Buf.isOf_iff.1 (h.sorted.find_eq_some hf)
    have hno := h.not_lock (c := c) (by rw [hc]; rfl)
    rw [update_refcnt] at hsorted ⊢
    refine h.recount rfl hsorted ?_ ⟨⟨hd, hk, hg⟩, ?_, fun h => (by cases h), fun h => by cases h⟩ ?_
    · intro b'
      rw [hc, BioPc.buf_idle, counts_none, BioPc.buf_at]
      by_cases hb' : b' = b
      · rw [hb', Function.update_self, counts_self]
      · rw [Function.update_of_ne hb', counts_of_ne hb']
    · exact iff_of_false (hno b) (fun h => by cases h)
    · exact fun b' hl => absurd hl (hno b')
  | @recycle c dev blockno b hc hf hv => exact h.recycle hc hg hf hv
  | @full c dev blockno hc =>
    refine h.recount rfl hsorted ?_ trivial fun b hl => absurd hl (h.not_lock (by rw [hc]; rfl) b)
    intro b
    rw [hc]
    rfl
  | @acquire c b dev blockno hc hl =>
    obtain ⟨hd, hk, -⟩ := h.own hc
    exact h.stay hc (.inl hl) hsorted rfl (fun _ _ => ⟨rfl, rfl⟩) hd hk rfl
      (fun _ _ _ => ⟨rfl, rfl⟩) (fun h => by cases h) (fun h => by cases h) (h.data_of_valid hc)
      (h.disk_of_invalid hc) (fun _ h => by cases h)
  | @hit c b dev blockno hc hv =>
    obtain ⟨hd, hk, -⟩ := h.own hc
    exact h.keep hc rfl rfl hsorted rfl (fun _ _ => ⟨rfl, rfl⟩) hd hk rfl
      (fun _ _ _ => ⟨rfl, rfl⟩) (fun _ => ⟨hv, h.data_of_valid hc hv⟩) (fun h => by cases h)
      (fun h => by cases h)
  | @miss c b dev blockno hc hv =>
    obtain ⟨hd, hk, -⟩ := h.own hc
    have hdisk := h.disk_of_invalid hc hv
    refine h.keep hc rfl rfl hsorted rfl (fun b' hb' => ⟨Function.update_of_ne hb' _ _, rfl⟩)
      ?_ ?_ ?_ (fun _ _ _ => ⟨rfl, rfl⟩) (fun h => by cases h) (fun _ => ⟨?_, ?_, hdisk⟩)
      (fun h => by cases h)
    all_goals simp only [Bcache.update, Function.update_self]
    · exact hd
    · exact hk
    · exact hv
    · rw [hd, hk]
      exact hdisk
  | @validate c b dev blockno hc =>
    obtain ⟨hd, hk, -⟩ := h.own hc
    have hserves := h.serves c
    rw [hc] at hserves
    refine h.keep hc rfl rfl hsorted rfl (fun b' hb' => ⟨Function.update_of_ne hb' _ _, rfl⟩)
      ?_ ?_ ?_ (fun _ _ _ => ⟨rfl, rfl⟩) (fun _ => ⟨?_, ?_⟩) (fun h => by cases h)
      (fun h => by cases h)
    all_goals simp only [Bcache.update, Function.update_self]
    · exact hd
    · exact hk
    · exact (hserves.2.2.2 rfl).2
  | @change c b dev blockno v hc =>
    obtain ⟨hd, hk, -⟩ := h.own hc
    refine h.keep hc rfl rfl hsorted rfl (fun b' hb' => ⟨Function.update_of_ne hb' _ _, rfl⟩)
      ?_ ?_ ?_ (fun d k hdk => ⟨rfl, ?_⟩) (fun _ => ⟨?_, ?_⟩) (fun h => by cases h)
      (fun h => by cases h)
    all_goals simp only [Bcache.update, Function.update_self]
    · exact hd
    · exact hk
    · by_cases hd' : d = dev
      · rw [hd', Function.update_self, Function.update_of_ne (hdk hd')]
      · rw [Function.update_of_ne hd']
    · exact h.valid_of_held hc
  | @write c b dev blockno hc hl =>
    obtain ⟨hd, hk, -⟩ := h.own hc
    have hv := h.valid_of_held hc
    refine h.keep hc rfl rfl hsorted rfl (fun _ _ => ⟨rfl, rfl⟩) hd hk rfl
      (fun d k hdk => ⟨?_, rfl⟩) (fun _ => ⟨hv, h.data_of_valid hc hv⟩) (fun h => by cases h)
      (fun h => by cases h)
    simp only [hd, hk]
    by_cases hd' : d = dev
    · rw [hd', Function.update_self, Function.update_of_ne (hdk hd')]
    · rw [Function.update_of_ne hd']
  | badWrite hc hl => exact absurd ((h.lock_iff hc).2 rfl) hl
  | @pin c b dev blockno hc =>
    obtain ⟨hd, hk, -⟩ := h.own hc
    have hv := h.valid_of_held hc
    refine h.keep hc rfl rfl hsorted rfl
      (fun b' hb' => ⟨Function.update_of_ne hb' _ _, Function.update_of_ne hb' _ _⟩)
      ?_ ?_ ?_ (fun _ _ _ => ⟨rfl, rfl⟩) (fun _ => ⟨?_, ?_⟩) (fun h => by cases h)
      (fun h => by cases h)
    all_goals simp only [Bcache.update, Function.update_self]
    · exact hd
    · exact hk
    · omega
    · exact hv
    · exact h.data_of_valid hc hv
  | @unpin c b dev blockno hc =>
    obtain ⟨hd, hk, -⟩ := h.own hc
    have hv := h.valid_of_held hc
    have hpins : s.cache.pins b ≠ 0 := hg b (by rw [hc]; rfl)
    have hrefs := h.refs b
    refine h.keep hc rfl rfl hsorted rfl
      (fun b' hb' => ⟨Function.update_of_ne hb' _ _, Function.update_of_ne hb' _ _⟩)
      ?_ ?_ ?_ (fun _ _ _ => ⟨rfl, rfl⟩) (fun _ => ⟨?_, ?_⟩) (fun h => by cases h)
      (fun h => by cases h)
    all_goals simp only [Bcache.update, Function.update_self]
    · exact hd
    · exact hk
    · omega
    · exact hv
    · exact h.data_of_valid hc hv
  | @unlock c b dev blockno hc hl =>
    obtain ⟨hd, hk, -⟩ := h.own hc
    refine h.stay hc (.inr hl) hsorted rfl (fun _ _ => ⟨rfl, rfl⟩) hd hk rfl
      (fun _ _ _ => ⟨rfl, rfl⟩) (fun h => by cases h) (fun h => by cases h) (h.data_of_valid hc)
      (h.disk_of_invalid hc) ?_
    intro _ _ hpins
    have hclean := hg b (by rw [hc]; rfl) hpins
    rwa [hd, hk] at hclean
  | badUnlock hc hl => exact absurd ((h.lock_iff hc).2 rfl) hl
  | @release c b dev blockno hc =>
    obtain ⟨links, stamp, clock, heq⟩ := brelse_eq b s.cache
    have hrefs := h.refs b
    have hpos : 0 < Lib.refs (fun c => (s.pc c).buf) b := refs_pos (h := c) (by rw [hc]; rfl)
    rw [heq] at hsorted ⊢
    refine h.recount rfl hsorted ?_ trivial ?_
    · intro b'
      rw [hc, BioPc.buf_idle, counts_none, BioPc.buf_at]
      by_cases hb' : b' = b
      · rw [hb', Function.update_self, counts_self]
        omega
      · rw [Function.update_of_ne hb', counts_of_ne hb']
    · intro b' hl
      have hb' := h.lock b' c hl
      rw [hc, BioPc.buf_at] at hb'
      rw [← Option.some.inj hb'] at hl
      cases (h.lock_iff hc).1 hl

end Bio.Ok

/-- **Coherence**: a client that holds a buffer of a block has the only one of all buffers, with
    what the block should contain; no other client holds it or reads it from the disk.  And only the
    panic of `bget` is ever reached. -/
theorem bread_coherent {disk : ℕ → ℕ → D} {data : D} {s : Bio C D}
    (h : Reach Bio.step BioGuard (Bio.init disk data) s) :
    (∀ c b dev blockno, s.pc c = .at .held b dev blockno →
      (s.cache.buf b).dev = dev ∧ (s.cache.buf b).blockno = blockno ∧
        (s.cache.buf b).data = s.cache.mem dev blockno ∧
        (∀ b', (s.cache.buf b').isOf dev blockno = true → b' = b) ∧
        ∀ c' ph b', s.pc c' = .at ph b' dev blockno → b' = b ∧ (ph.locks = true → c' = c)) ∧
      ∀ c, s.pc c ≠ .panic := by
  have hok : s.Ok :=
    h.invariant (Bio.ok_init disk data) fun _ _ _ hok hg hs => Bio.Ok.step hok hg hs
  refine ⟨?_, ?_⟩
  · intro c b dev blockno hc
    obtain ⟨hd, hk, hne⟩ := hok.own hc
    have hunique : ∀ b', (s.cache.buf b').isOf dev blockno = true → b' = b := by
      intro b' hb'
      rw [Buf.isOf, Bool.and_eq_true, beq_iff_eq, beq_iff_eq] at hb'
      exact hok.unique b b' (hd ▸ hne) (hb'.1.trans hd.symm) (hb'.2.trans hk.symm)
    refine ⟨hd, hk, hok.data_of_valid hc (hok.valid_of_held hc), hunique, ?_⟩
    intro c' ph b' hc'
    obtain ⟨hd', hk', -⟩ := hok.own hc'
    obtain rfl : b' = b := hunique b' (by simp [Buf.isOf, hd', hk'])
    refine ⟨rfl, fun hph => ?_⟩
    have hl := (hok.lock_iff hc).2 rfl
    have hl' := (hok.lock_iff hc').2 hph
    exact Option.some.inj (hl'.symm.trans hl)
  · intro c hc
    have hserves := hok.serves c
    rw [hc] at hserves
    exact hserves

theorem bread_coherent_useBlock :
    ∃ s : Bio Slot ℕ, Reach Bio.step BioGuard (Bio.init (fun _ _ => 0) 0) s ∧
      s.pc 1 = .at .held 0 1 7 ∧ (s.cache.buf 0).data = 5 ∧
      (s.cache.buf 0).data = s.cache.mem 1 7 := by
  have hfacts : (Lib.run (guarded Bio.step BioGuard)
      (useBlock ++ [.bget 1 1 7, .acquiresleep 1, .read 1]) (Bio.init (fun _ _ => 0) 0)).map
        (fun s => (s.pc 1, (s.cache.buf 0).data)) = some (.at .held 0 1 7, 5) := by decide +kernel
  obtain ⟨s, hs, hfacts⟩ := Option.map_eq_some_iff.1 hfacts
  have hreach := Reach.of_run _ hs
  have hpc := congrArg Prod.fst hfacts
  exact ⟨s, hreach, hpc, congrArg Prod.snd hfacts,
    ((bread_coherent hreach).1 1 0 1 7 hpc).2.2.1⟩

end

end Xv6
