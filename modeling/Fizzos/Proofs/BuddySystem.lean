import Fizzos.Proofs.Buddy
import Mathlib.Algebra.Group.Pi.Basic
import Mathlib.Algebra.Order.Group.Multiset

/-!
# `Fizzos.Proofs.BuddySystem`: every run of the page allocator

`buddy_init` lays out two pools of blocks of the maximal order (`buddyInit_spec`). Each call
of a correct caller keeps `BuddyInv` with the blocks that the callers hold
(`buddySystem_inductive`).
-/

set_option autoImplicit false

namespace Fizzos.Proofs

open Fizzos.Kernel
open Fizzos.LibKernel
open Fizzos.Support
open BuddyInv (hold mem_hold_iff hold_add hold_erase)

/-! ### The pools of a machine -/

/-- The number of the first block of a pool. -/
def poolStart (totalMemSize : Nat) : Pool → Nat
  | .kernel => 0
  | .user => poolBlocks totalMemSize .kernel

/-- The first page of a pool. -/
def poolLo (totalMemSize : Nat) (P : Pool) : Nat := 2 ^ MAX_ORDER * poolStart totalMemSize P

/-- The page behind a pool. -/
def poolHi (totalMemSize : Nat) (P : Pool) : Nat :=
  2 ^ MAX_ORDER * (poolStart totalMemSize P + poolBlocks totalMemSize P)

/-- The blocks of the maximal order that `buddy_init` puts into a pool. -/
def initBlocks (totalMemSize : Nat) (P : Pool) : List Nat :=
  (List.range' (poolStart totalMemSize P) (poolBlocks totalMemSize P)).map (2 ^ MAX_ORDER * ·)

/-- The free lists behind `buddy_init`. -/
def initFree (totalMemSize : Nat) : FreeLists :=
  fun P o => if o = MAX_ORDER then initBlocks totalMemSize P else []

section
variable {totalMemSize : Nat}

/-- The user pool is not smaller than the kernel pool. -/
theorem poolBlocks_kernel_le : poolBlocks totalMemSize .kernel ≤ poolBlocks totalMemSize .user := by
  simp only [poolBlocks]
  omega

/-- The bitmaps of a pool are long enough for the absolute page indices. -/
theorem pair_lt_of_lt_poolHi {P : Pool} {o i : Nat} (ho : o ≤ MAX_ORDER)
    (hi : i < poolHi totalMemSize P) :
    i >>> (o + 1) < poolBlocks totalMemSize P * 2 ^ (MAX_ORDER - o) := by
  have hblocks : poolStart totalMemSize P + poolBlocks totalMemSize P
      ≤ poolBlocks totalMemSize P * 2 := by
    have hle : poolBlocks totalMemSize .kernel ≤ poolBlocks totalMemSize .user :=
      poolBlocks_kernel_le
    cases P <;> simp only [poolStart] <;> omega
  have hpow : 2 ^ MAX_ORDER * 2 = 2 ^ (MAX_ORDER - o) * 2 ^ (o + 1) := by
    rw [← Nat.pow_succ, ← Nat.pow_add, show MAX_ORDER - o + (o + 1) = MAX_ORDER.succ by omega]
  rw [Nat.shiftRight_eq_div_pow, Nat.div_lt_iff_lt_mul (Nat.two_pow_pos _)]
  calc i < 2 ^ MAX_ORDER * (poolStart totalMemSize P + poolBlocks totalMemSize P) := hi
    _ ≤ 2 ^ MAX_ORDER * (poolBlocks totalMemSize P * 2) := Nat.mul_le_mul_left _ hblocks
    _ = poolBlocks totalMemSize P * (2 ^ MAX_ORDER * 2) := Nat.mul_left_comm _ _ _
    _ = poolBlocks totalMemSize P * 2 ^ (MAX_ORDER - o) * 2 ^ (o + 1) := by
        rw [hpow, Nat.mul_assoc]

/-- The ranges of the pools fit together. -/
theorem poolRanges (htotal : totalMemSize < 2 ^ 32) :
    PoolRanges (poolLo totalMemSize) (poolHi totalMemSize) where
  lo_dvd P := Dvd.intro _ rfl
  hi_dvd P := Dvd.intro _ rfl
  kernel_le := by simp [poolHi, poolLo, poolStart]
  hi_le P := by
    have hpages : 2 ^ MAX_ORDER * ((totalMemSize / PG_SIZE) >>> MAX_ORDER) ≤ totalMemSize := by
      rw [Nat.shiftRight_eq_div_pow]
      exact (Nat.mul_div_le _ _).trans (Nat.div_le_self _ _)
    have hblocks : poolStart totalMemSize P + poolBlocks totalMemSize P
        ≤ (totalMemSize / PG_SIZE) >>> MAX_ORDER := by
      cases P <;> simp only [poolStart, poolBlocks] <;>
        generalize (totalMemSize / PG_SIZE) >>> MAX_ORDER = nr <;> omega
    have hmul := Nat.mul_le_mul_left (2 ^ MAX_ORDER) hblocks
    simp only [poolHi, LIST_WALK]
    omega

/-- The blocks of `buddy_init` tile a pool. -/
theorem tiles_init (P : Pool) :
    Tiles (poolLo totalMemSize P) (poolHi totalMemSize P) MAX_ORDER
      (freeBlocks (initFree totalMemSize P) (MAX_ORDER + 1)) := by
  have hlower : ∀ n ≤ MAX_ORDER, freeBlocks (initFree totalMemSize P) n = 0 := by
    intro n
    induction n with
    | zero => exact fun _ => rfl
    | succ n ih =>
        intro hn
        have hne : n ≠ MAX_ORDER := by omega
        simp [freeBlocks, ih (by omega), initFree, hne]
  rw [freeBlocks, hlower _ (Nat.le_refl _), Multiset.zero_add]
  have hmap : (initFree totalMemSize P MAX_ORDER : Multiset Nat).map (Block.mk · MAX_ORDER)
      = ((List.range' (poolStart totalMemSize P) (poolBlocks totalMemSize P)).map
          fun k => Block.mk (2 ^ MAX_ORDER * k) MAX_ORDER : List Block) := by
    simp [initFree, initBlocks, Function.comp_def]
  rw [hmap]
  exact Tiles.ofRange _ _ _

end

/-! ### `buddy_init` -/

/-- The loop that fills a list appends its blocks. -/
theorem initList_spec (P : Pool) (n : Nat) :
    ∀ (i : Nat) {b : Buddy} {xs : List Nat}, KERNEL_VADDR_START ≤ b.memMap →
      IsList b.lru (b.area P MAX_ORDER).pgList xs → (∀ x ∈ xs, x < 2 ^ MAX_ORDER * i) →
      ∃ pgList lru, Buddy.initList P n i b = .ok (b.setList P MAX_ORDER pgList lru) ∧
        IsList lru pgList (xs ++ (List.range' i n).map (2 ^ MAX_ORDER * ·)) ∧
        ∀ y, y < 2 ^ MAX_ORDER * i → y ∉ xs → lru y = b.lru y := by
  induction n with
  | zero =>
      intro i b xs hmem hlist hxs
      refine ⟨(b.area P MAX_ORDER).pgList, b.lru, ?_, by simpa using hlist, fun _ _ _ => rfl⟩
      simp [Buddy.initList, Buddy.setList, Buddy.setArea]
  | succ n ih =>
      intro i b xs hmem hlist hxs
      -- The blocks on the list are below the next one.
      have hnot : 2 ^ MAX_ORDER * i ∉ xs := fun hx => Nat.lt_irrefl _ (hxs _ hx)
      have hstep : 2 ^ MAX_ORDER * i < 2 ^ MAX_ORDER * (i + 1) := by
        rw [Nat.mul_succ]
        exact Nat.lt_add_of_pos_right (Nat.two_pow_pos _)
      obtain ⟨pgList₁, lru₁, hpush, hlist₁, hframe₁⟩ :=
        listPushBack_spec hlist hnot (inKernel_lruAddr hmem _)
      have hlist₂ : IsList (b.setList P MAX_ORDER pgList₁ lru₁).lru
          ((b.setList P MAX_ORDER pgList₁ lru₁).area P MAX_ORDER).pgList
          (xs ++ [2 ^ MAX_ORDER * i]) := by simpa using hlist₁
      have hxs₂ : ∀ x ∈ xs ++ [2 ^ MAX_ORDER * i], x < 2 ^ MAX_ORDER * (i + 1) := by
        intro x hx
        rcases List.mem_append.mp hx with hx | hx
        · exact (hxs x hx).trans hstep
        · rw [List.mem_singleton.mp hx]
          exact hstep
      obtain ⟨pgList, lru, hloop, hlist', hframe⟩ :=
        ih (i + 1) (b := b.setList P MAX_ORDER pgList₁ lru₁) hmem hlist₂ hxs₂
      refine ⟨pgList, lru, ?_, ?_, fun y hy hyxs => ?_⟩
      · simp only [Buddy.initList, Buddy.pushBack, Nat.one_shiftLeft, hpush, ok_bind,
          pure_eq_ok, hloop]
        simp [Buddy.setList, Buddy.setArea]
      · rwa [List.range'_succ, List.map_cons, List.append_cons]
      · have hne : y ≠ 2 ^ MAX_ORDER * i := Nat.ne_of_lt hy
        rw [hframe y (hy.trans hstep) (by simp [hyxs, hne])]
        exact hframe₁ y hne hyxs

/-- The loop that lays out the bitmaps clears them and frees their locks. -/
theorem initBitmaps_spec (P : Pool) (n : Nat) :
    ∀ (nr saddr : Nat) (b : Buddy), 0 < nr →
      ∃ saddr' area, Buddy.initBitmaps P n nr saddr b = .ok (saddr', { b with area }) ∧
        (∀ Q q, (area Q q).pgList = (b.area Q q).pgList ∧
          (area Q q).nrFree = (b.area Q q).nrFree) ∧
        (∀ Q q, ¬(Q = P ∧ q < n) → area Q q = b.area Q q) ∧
        ∀ q < n, (area P q).bmap.lock = mutexLockInit ∧
          ∀ k < nr * 2 ^ (n - 1 - q), (area P q).bmap.bit k = false := by
  induction n with
  | zero => exact fun nr saddr b _ => ⟨saddr, b.area, rfl, by simp, by simp, by omega⟩
  | succ n ih =>
      intro nr saddr b hnr
      -- The loop goes down, with twice as many bits for the next order.
      obtain ⟨bmap, hinit, -, hlock, -, hbit⟩ := bitmapInit_spec
        { (b.area P n).bmap with addr := saddr + KERNEL_VADDR_START } hnr
      obtain ⟨saddr', area, hloop, hsame, hother, hself⟩ := ih (nr * 2)
        (saddr + DIV_ROUND_UP nr 8) (b.setArea P n { b.area P n with bmap }) (by omega)
      refine ⟨saddr', area, ?_, fun Q q => ?_, fun Q q hne => ?_, fun q hq => ?_⟩
      · simp only [Buddy.initBitmaps, hinit, ok_bind, hloop]
        rfl
      · by_cases hne : Q = P ∧ q = n
        · obtain ⟨rfl, rfl⟩ := hne
          simpa using hsame Q q
        · simpa [Buddy.setArea_of_ne _ _ hne] using hsame Q q
      · rw [hother Q q fun h => hne ⟨h.1, by omega⟩]
        exact Buddy.setArea_of_ne _ _ fun h => hne ⟨h.1, by omega⟩
      · rcases Nat.lt_succ_iff_lt_or_eq.mp hq with hlt | rfl
        · obtain ⟨hlock', hbit'⟩ := hself q hlt
          refine ⟨hlock', fun k hk => hbit' k ?_⟩
          have hpow : 2 ^ (n + 1 - 1 - q) = 2 * 2 ^ (n - 1 - q) := by
            rw [← Nat.pow_succ', show (n - 1 - q).succ = n + 1 - 1 - q by omega]
          rwa [hpow, ← Nat.mul_assoc] at hk
        · rw [hother P q fun h => Nat.lt_irrefl _ h.2, Buddy.setArea_self]
          exact ⟨hlock, fun k hk => hbit k (by simpa using hk)⟩

/-- A pool behind its part of `buddy_init`: `nr` blocks of the maximal order from the block
`start` on, and clear bitmaps. -/
structure PoolInit (lru : Links Nat) (area : Nat → FreeArea) (start nr : Nat) : Prop where
  top : IsList lru (area MAX_ORDER).pgList ((List.range' start nr).map (2 ^ MAX_ORDER * ·))
  topFree : (area MAX_ORDER).nrFree = nr
  pgList : ∀ o, o ≠ MAX_ORDER → (area o).pgList = listInit
  nrFree : ∀ o, o ≠ MAX_ORDER → (area o).nrFree = 0
  lock : ∀ o, o ≤ MAX_ORDER → (area o).bmap.lock = mutexLockInit
  bits : ∀ o, o ≤ MAX_ORDER → ∀ k < nr * 2 ^ (MAX_ORDER - o), (area o).bmap.bit k = false

/-- `buddy_init` for one pool leaves the other pool and the links below alone. -/
theorem initPool_spec {b : Buddy} {P : Pool} {nr : Nat} (start saddr : Nat)
    (hmem : KERNEL_VADDR_START ≤ b.memMap) (hpg : ∀ o, (b.area P o).pgList = listInit)
    (hfree : ∀ o, (b.area P o).nrFree = 0) (hnr : 0 < nr) :
    ∃ saddr' lru area, b.initPool P start nr saddr = .ok (saddr', { b with lru, area }) ∧
      PoolInit lru (area P) start nr ∧ (∀ Q, Q ≠ P → area Q = b.area Q) ∧
      ∀ y, y < 2 ^ MAX_ORDER * start → lru y = b.lru y := by
  have hempty : IsList b.lru (b.area P MAX_ORDER).pgList [] := by
    rw [hpg]
    exact IsList.init _
  obtain ⟨pgList, lru, hlist, htop, hframe⟩ := initList_spec P nr start
    (b := b.setArea P MAX_ORDER { b.area P MAX_ORDER with nrFree := nr }) hmem
    (by simpa using hempty) (by simp)
  obtain ⟨saddr', area, hloop, hsame, hother, hself⟩ := initBitmaps_spec P (MAX_ORDER + 1) nr
    saddr ((b.setArea P MAX_ORDER { b.area P MAX_ORDER with nrFree := nr }).setList P
      MAX_ORDER pgList lru) hnr
  -- Only the list of the largest order has blocks.
  have hlower : ∀ o, o ≠ MAX_ORDER → (area P o).pgList = (b.area P o).pgList ∧
      (area P o).nrFree = (b.area P o).nrFree := by
    intro o ho
    have hne : ¬(P = P ∧ o = MAX_ORDER) := fun h => ho h.2
    have h := hsame P o
    rwa [Buddy.setList_of_ne _ _ _ hne, Buddy.setArea_of_ne _ _ hne] at h
  refine ⟨saddr', lru, area, ?_, ?_, fun Q hQ => ?_, fun y hy => hframe y hy (by simp)⟩
  · simp only [Buddy.initPool, hlist, ok_bind, hloop]
    rfl
  · exact
      { top := by simpa [(hsame P MAX_ORDER).1] using htop
        topFree := by simp [(hsame P MAX_ORDER).2]
        pgList := fun o ho => (hlower o ho).1.trans (hpg o)
        nrFree := fun o ho => (hlower o ho).2.trans (hfree o)
        lock := fun o ho => (hself o (by omega)).1
        bits := fun o ho => (hself o (by omega)).2 }
  · funext q
    have hne : ¬(Q = P ∧ q = MAX_ORDER) := fun h => hQ h.1
    rw [hother Q q fun h => hQ h.1, Buddy.setList_of_ne _ _ _ hne, Buddy.setArea_of_ne _ _ hne]

/-- `buddy_init` puts all memory of the pools on the lists of the maximal order. -/
theorem buddyInit_spec {totalMemSize : Nat} (hpool : ∀ P, 0 < poolBlocks totalMemSize P)
    {b : Buddy} (hzero : b.Zeroed) (saddr : Nat) :
    ∃ saddr' b', b.buddyInit saddr totalMemSize = .ok (saddr', b') ∧
      BuddyInv (poolLo totalMemSize) (poolHi totalMemSize) b' (initFree totalMemSize)
        fun _ => 0 := by
  obtain ⟨saddr₁, lru₁, area₁, hk, hkernel, hother₁, -⟩ := initPool_spec
    (b := { b with
      memMap := saddr + KERNEL_VADDR_START, pgCnt := totalMemSize / PG_SIZE
      userStartIdx := poolBlocks totalMemSize .kernel * (1 <<< MAX_ORDER) })
    (P := .kernel) 0 (saddr + totalMemSize / PG_SIZE * SIZEOF_PAGE)
    (Nat.le_add_left _ _) (hzero.pgList .kernel) (hzero.nrFree .kernel) (hpool .kernel)
  obtain ⟨saddr₂, lru₂, area₂, hu, huser, hother₂, hframe₂⟩ := initPool_spec
    (b := { b with
      memMap := saddr + KERNEL_VADDR_START, pgCnt := totalMemSize / PG_SIZE
      userStartIdx := poolBlocks totalMemSize .kernel * (1 <<< MAX_ORDER)
      lru := lru₁, area := area₁ })
    (P := .user) (poolBlocks totalMemSize .kernel) saddr₁
    (Nat.le_add_left _ _) (fun o => by simpa [hother₁ .user] using hzero.pgList .user o)
    (fun o => by simpa [hother₁ .user] using hzero.nrFree .user o) (hpool .user)
  have hinit : ∀ P, PoolInit lru₂ (area₂ P) (poolStart totalMemSize P)
      (poolBlocks totalMemSize P) := by
    intro P
    cases P with
    | user => exact huser
    | kernel =>
        -- the links of the kernel's blocks lie below the user pool
        rw [hother₂ .kernel (by decide)]
        refine { hkernel with top := hkernel.top.congr fun x hx => hframe₂ x ?_ }
        obtain ⟨k, hk, rfl⟩ := List.mem_map.mp hx
        have hlt := (List.mem_range'_1.mp hk).2
        exact Nat.mul_lt_mul_of_pos_left (by omega) (Nat.two_pow_pos _)
  refine ⟨saddr₂, { b with
    memMap := saddr + KERNEL_VADDR_START, pgCnt := totalMemSize / PG_SIZE
    userStartIdx := poolBlocks totalMemSize .kernel * (1 <<< MAX_ORDER)
    lru := lru₂, area := area₂ }, ?_, ⟨?_, fun P => ?_, fun P o i ho _ => ?_⟩⟩
  · simp only [Buddy.buddyInit]
    rw [show ((totalMemSize / PG_SIZE) >>> MAX_ORDER) / 4 = poolBlocks totalMemSize .kernel
      from rfl, hk, ok_bind]
    exact hu
  · refine
      { memMap := Nat.le_add_left _ _
        userStart := ?_
        list := fun P o ho => ?_
        nrFree := fun P o ho => ?_
        lock := fun P => (hinit P).lock
        bits := fun P o ho i hdvd hlo hhi => ?_ }
    · rw [poolLo, poolStart, Nat.one_shiftLeft, Nat.mul_comm]
    · by_cases htop : o = MAX_ORDER
      · subst htop
        simpa [initFree, initBlocks] using (hinit P).top
      · simpa [initFree, htop, (hinit P).pgList o htop] using IsList.init lru₂
    · by_cases htop : o = MAX_ORDER
      · subst htop
        simpa [initFree, initBlocks] using (hinit P).topFree
      · simpa [initFree, htop] using (hinit P).nrFree o htop
    · have hne : o ≠ MAX_ORDER := Nat.ne_of_lt ho
      rw [(hinit P).bits o ho.le _ (pair_lt_of_lt_poolHi ho.le hhi)]
      simp [initFree, hne]
  · rw [Multiset.add_zero]
    exact tiles_init P
  · simp [initFree, Nat.ne_of_lt ho]

/-- `bitmap_init` asserts that a pool has a block. -/
theorem pos_of_initPool {b : Buddy} {P : Pool} {start nr saddr : Nat} {r : Nat × Buddy}
    (h : b.initPool P start nr saddr = .ok r) : 0 < nr := by
  simp only [Buddy.initPool, MAX_ORDER, Buddy.initBitmaps, bitmapInit, bind_eq_ok,
    ASSERT_eq_ok] at h
  obtain ⟨_, -, _, ⟨_, hpos, -⟩, -⟩ := h
  exact hpos

/-- `buddy_init` returns only if both pools have blocks. -/
theorem poolBlocks_pos_of_init {totalMemSize : Nat} {s : BuddyState}
    (h : BuddyState.Init totalMemSize s) (P : Pool) : 0 < poolBlocks totalMemSize P := by
  obtain ⟨⟨b, saddr, -, hinit⟩, -⟩ := h
  simp only [Buddy.buddyInit, bind_eq_ok] at hinit
  obtain ⟨⟨saddr₁, b₁⟩, hkernel, huser⟩ := hinit
  cases P with
  | kernel => exact pos_of_initPool hkernel
  | user => exact pos_of_initPool huser

/-! ### Runs -/

/-- The invariant of a run: the free lists `fr` and the blocks `out` that are not free tile
the pools, and each of these blocks has its order in its first page. -/
structure RunInv (totalMemSize : Nat) (b : Buddy) (out : Pool → Multiset Block)
    (fr : FreeLists) : Prop where
  buddy : BuddyInv (poolLo totalMemSize) (poolHi totalMemSize) b fr out
  order : ∀ P, ∀ blk ∈ out P, (b.page blk.idx).private = blk.order

section
variable {totalMemSize : Nat} {b : Buddy} {out : Pool → Multiset Block} {fr : FreeLists}

/-- `alloc_pages` gives out a new block, or stops with its `PANIC`. -/
theorem RunInv.allocPages (h : RunInv totalMemSize b out fr) (htotal : totalMemSize < 2 ^ 32)
    (flag : Nat) {order : Nat} (ho : order ≤ MAX_ORDER) (current : Tid) :
    b.allocPages flag order current = .error .panic ∨
    ∃ idx b' fr', b.allocPages flag order current = .ok (idx, b') ∧
      RunInv totalMemSize b' (hold out (poolOfFlag flag) ⟨idx, order⟩) fr' ∧
      b'.page = Function.update b.page idx { count := 1, «private» := order } := by
  have hr := poolRanges htotal
  rcases h.buddy.allocPages hr flag ho current with ⟨hpanic, -⟩ | ⟨idx, b', fr', hok, hpage, h'⟩
  · exact .inl hpanic
  · refine .inr ⟨idx, b', fr', hok, ⟨h', fun Q blk hblk => ?_⟩, hpage⟩
    rw [hpage]
    -- the other blocks have their descriptors elsewhere
    rcases mem_hold_iff.mp hblk with ⟨-, rfl⟩ | hother
    · rw [Function.update_self]
    · rw [Function.update_of_ne (h'.idx_ne_of_mem hr hother)]
      exact h.order Q blk hother

/-- A page descriptor with another count. -/
theorem RunInv.setCount (h : RunInv totalMemSize b out fr) (idx : Nat) (count : Int) :
    RunInv totalMemSize (b.setPage idx { b.page idx with count }) out fr := by
  refine ⟨h.buddy.setPage idx _, fun P blk hblk => ?_⟩
  have horder := h.order P blk hblk
  by_cases hidx : blk.idx = idx
  · subst hidx
    simpa using horder
  · simpa [hidx] using horder

/-- `__free_pages` of the last reference gives the block back. -/
theorem RunInv.freePages {P : Pool} {blk : Block}
    (h : RunInv totalMemSize b (hold out P blk) fr) (htotal : totalMemSize < 2 ^ 32)
    (hcount : (b.page blk.idx).count = 1) (current : Tid) :
    ∃ b' fr', b.freePages blk.idx blk.order current = .ok b' ∧
      RunInv totalMemSize b' out fr' ∧
      b'.page = Function.update b.page blk.idx { count := 0, «private» := blk.order } := by
  have hr := poolRanges htotal
  have horder := h.order P blk (BuddyInv.mem_hold out P blk)
  obtain ⟨b', fr', hok, hpage, h'⟩ := h.buddy.freePages_last hr horder hcount current
  refine ⟨b', fr', hok, ⟨h', fun Q blk' hblk' => ?_⟩, hpage⟩
  rw [hpage, Function.update_of_ne (h.buddy.idx_ne_of_mem hr hblk')]
  exact h.order Q blk' (mem_hold_iff.mpr (.inr hblk'))

end

section
variable {totalMemSize : Nat} {s s' : BuddyState} {out : Pool → Multiset Block} {fr : FreeLists}

/-- What a call of a correct caller keeps, when others hold the blocks `out`. -/
structure KeepsOut (totalMemSize : Nat) (s s' : BuddyState) (out : Pool → Multiset Block)
    (fr : FreeLists) : Prop where
  run : RunInv totalMemSize s'.buddy (s'.live + out) fr
  page : ∀ P, ∀ blk ∈ out P, s'.buddy.page blk.idx = s.buddy.page blk.idx

theorem RunInv.alloc (h : RunInv totalMemSize s.buddy (s.live + out) fr)
    (htotal : totalMemSize < 2 ^ 32) (flag : Nat) {order : Nat} (ho : order ≤ MAX_ORDER)
    (current : Tid) :
    s.next (.alloc flag order current) = .error .panic ∨
    ∃ s' fr', s.next (.alloc flag order current) = .ok s' ∧
      KeepsOut totalMemSize s s' out fr' := by
  rcases h.allocPages htotal flag ho current with hpanic | ⟨idx, b', fr', hok, h', hpage⟩
  · exact .inl (by simp [BuddyState.next, hpanic])
  · refine .inr ⟨_, fr', by simp only [BuddyState.next, hok, ok_bind]; rfl, ?_, ?_⟩
    · rw [← hold_add] at h'
      exact h'
    · intro P blk hblk
      have hne : blk.idx ≠ idx := h'.buddy.idx_ne_of_mem (poolRanges htotal) (Q := P)
        (Multiset.mem_add.mpr (.inr hblk))
      simp only [hpage, Function.update_of_ne hne]

/-- A live block shares no page with the blocks of others. -/
theorem RunInv.live_not_covers (h : RunInv totalMemSize s.buddy (s.live + out) fr)
    (htotal : totalMemSize < 2 ^ 32) {P Q : Pool} {blk blk' : Block} (hlive : blk ∈ s.live P)
    (hout : blk' ∈ out Q) {p : Nat} (hp : blk.Covers p) : ¬blk'.Covers p := by
  have hbuddy := h.buddy
  rw [← hold_erase hlive, hold_add] at hbuddy
  exact hbuddy.not_covers (poolRanges htotal) (Multiset.mem_add.mpr (.inr hout)) hp

theorem RunInv.ref (h : RunInv totalMemSize s.buddy (s.live + out) fr)
    (htotal : totalMemSize < 2 ^ 32) {idx : Nat} (ha : s.Enabled (.ref idx)) :
    ∃ s', s.next (.ref idx) = .ok s' ∧ KeepsOut totalMemSize s s' out fr := by
  obtain ⟨P, blk, hlive, hcov⟩ := ha
  refine ⟨_, rfl, h.setCount idx _, fun Q blk' hblk' => ?_⟩
  have hne : blk'.idx ≠ idx := fun heq =>
    h.live_not_covers htotal hlive hblk' hcov (heq ▸ blk'.covers_idx)
  simp [hne]

/-- `__free_pages` of the last reference of a live block. -/
theorem RunInv.free_last (h : RunInv totalMemSize s.buddy (s.live + out) fr)
    (htotal : totalMemSize < 2 ^ 32) {P : Pool} {blk : Block} (hlive : blk ∈ s.live P)
    (hcount : (s.buddy.page blk.idx).count = 1) (current : Tid) :
    ∃ s' fr', s.next (.free P blk current) = .ok s' ∧ KeepsOut totalMemSize s s' out fr' ∧
      s'.live = Function.update s.live P ((s.live P).erase blk) := by
  have hheld := h
  rw [← hold_erase hlive, hold_add] at hheld
  obtain ⟨b', fr', hok, h', hpage⟩ := hheld.freePages htotal hcount current
  have hlast : (atomicDecAndSetg (s.buddy.page blk.idx).count).2 = false := by
    simp [atomicDecAndSetg, hcount]
  refine ⟨_, fr', by simp only [BuddyState.next, hok, ok_bind, hlast]; rfl, ⟨h', ?_⟩, rfl⟩
  intro Q blk' hblk'
  have hne : blk'.idx ≠ blk.idx := fun heq =>
    h.live_not_covers htotal hlive hblk' blk.covers_idx (heq ▸ blk'.covers_idx)
  simp only [hpage, Function.update_of_ne hne]

/-- `__free_pages` of a shared block drops one reference. -/
theorem RunInv.free_shared (h : RunInv totalMemSize s.buddy (s.live + out) fr)
    (htotal : totalMemSize < 2 ^ 32) {P : Pool} {blk : Block} (hlive : blk ∈ s.live P)
    (hcount : 1 < (s.buddy.page blk.idx).count) (current : Tid) :
    ∃ s', s.next (.free P blk current) = .ok s' ∧ KeepsOut totalMemSize s s' out fr := by
  have hleft : (atomicDecAndSetg (s.buddy.page blk.idx).count).2 = true := by
    simp [atomicDecAndSetg, hcount]
  have hdrop := h.setCount blk.idx (wrap32 ((s.buddy.page blk.idx).count - 1))
  refine ⟨{ s with buddy := _ }, ?_, hdrop, ?_⟩
  · simp only [BuddyState.next, BuddyInv.freePages_shared hcount, ok_bind, hleft]
    rfl
  · intro Q blk' hblk'
    have hne : blk'.idx ≠ blk.idx := fun heq =>
      h.live_not_covers htotal hlive hblk' blk.covers_idx (heq ▸ blk'.covers_idx)
    simp [hne]

/-- Every call of a correct caller keeps the invariant and the blocks of others, and only
`alloc_pages` stops, with its `PANIC`. -/
theorem RunInv.next (h : RunInv totalMemSize s.buddy (s.live + out) fr)
    (htotal : totalMemSize < 2 ^ 32) {a : BuddyAct} (ha : s.Enabled a) :
    (s.next a = .error .panic ∧ ∃ flag order current, a = .alloc flag order current) ∨
    ∃ s' fr', s.next a = .ok s' ∧ KeepsOut totalMemSize s s' out fr' := by
  cases a with
  | alloc flag order current =>
      exact (h.alloc htotal flag ha current).imp_left fun hpanic => ⟨hpanic, _, _, _, rfl⟩
  | ref idx =>
      obtain ⟨s', hok, h'⟩ := h.ref htotal ha
      exact .inr ⟨s', fr, hok, h'⟩
  | free P blk current =>
      obtain ⟨hlive, hcount⟩ := ha
      rcases Int.lt_or_eq_of_le hcount with hgt | heq
      · obtain ⟨s', hok, h'⟩ := h.free_shared htotal hlive hgt current
        exact .inr ⟨s', fr, hok, h'⟩
      · obtain ⟨s', fr', hok, h', -⟩ := h.free_last htotal hlive heq.symm current
        exact .inr ⟨s', fr', hok, h'⟩

/-- The invariant holds behind `buddy_init`. -/
theorem runInv_init (hpool : ∀ P, 0 < poolBlocks totalMemSize P)
    (hs : BuddyState.Init totalMemSize s) :
    RunInv totalMemSize s.buddy (s.live + 0) (initFree totalMemSize) := by
  rw [add_zero]
  obtain ⟨⟨b, saddr, hzero, hinit⟩, hlive⟩ := hs
  obtain ⟨saddr', b', hok, hinv⟩ := buddyInit_spec hpool hzero POOL_START
  have heq : b' = s.buddy := by
    rw [hok] at hinit
    exact congrArg Prod.snd (Except.ok.inj hinit)
  have hnone : s.live = fun _ => 0 := funext hlive
  refine ⟨?_, fun P blk hblk => ?_⟩
  · rw [← heq, hnone]
    exact hinv
  · rw [hlive P] at hblk
    exact absurd hblk (Multiset.notMem_zero _)

/-- The run lemma: some free lists and the live blocks tile the pools in every reachable
state. -/
theorem buddySystem_inductive (hpool : ∀ P, 0 < poolBlocks totalMemSize P)
    (htotal : totalMemSize < 2 ^ 32) :
    (buddySystem totalMemSize).Inductive fun s =>
      ∃ fr, RunInv totalMemSize s.buddy (s.live + 0) fr where
  init hs := ⟨_, runInv_init hpool hs⟩
  step h ha hnext := by
    obtain ⟨fr, h⟩ := h
    rcases h.next htotal ha with ⟨hpanic, -⟩ | ⟨s', fr', hok, h'⟩
    · exact absurd (hnext.symm.trans hpanic) (by simp)
    · obtain rfl := Except.ok.inj (hok.symm.trans hnext)
      exact ⟨fr', h'.run⟩

/-- Tiling, for every run: in every reachable state the lists of a pool hold free blocks
that tile the pool together with its live blocks, each counter is the length of its list, and
each bit says if exactly one of its two buddies is free. No call stops, except for the
`PANIC` of `alloc_pages` when it finds no block. -/
theorem buddySystem_tiled (hpool : ∀ P, 0 < poolBlocks totalMemSize P)
    (htotal : totalMemSize < 2 ^ 32) (hs : (buddySystem totalMemSize).Reachable s) :
    (∃ fr : FreeLists, ∀ P,
      Tiles (poolLo totalMemSize P) (poolHi totalMemSize P) MAX_ORDER
        (freeBlocks (fr P) (MAX_ORDER + 1) + s.live P) ∧
      ∀ o ≤ MAX_ORDER,
        IsList s.buddy.lru (s.buddy.area P o).pgList (fr P o) ∧
        (s.buddy.area P o).nrFree = (fr P o).length ∧
        (o < MAX_ORDER → PairBits (poolLo totalMemSize P) (poolHi totalMemSize P) o
          (s.buddy.area P o).bmap.bit (fr P o))) ∧
    ∀ a e, s.Enabled a → s.next a = .error e →
      e = .panic ∧ ∃ flag order current, a = .alloc flag order current := by
  obtain ⟨fr, h⟩ := (buddySystem_inductive hpool htotal).reachable hs
  have hrep := h.buddy.rep
  have htiles := h.buddy.tiles
  rw [add_zero] at htiles
  refine ⟨⟨fr, fun P => ⟨htiles P, fun o ho => ?_⟩⟩, fun a e ha he => ?_⟩
  · exact ⟨hrep.list P o ho, hrep.nrFree P o ho, hrep.bits P o⟩
  · rcases h.next htotal ha with ⟨hpanic, hact⟩ | ⟨s', fr', hok, -⟩
    · rw [he] at hpanic
      exact ⟨Except.error.inj hpanic, hact⟩
    · exact absurd (he.symm.trans hok) (by simp)

/-- A machine with 16 MiB has one kernel block and three user blocks. -/
theorem poolBlocks_pos_16M (P : Pool) : 0 < poolBlocks 0x1000000 P := by
  cases P <;> decide

/-- Static storage before `buddy_init`. -/
def zeroedBuddy : Buddy :=
  { memMap := 0, pgCnt := 0, userStartIdx := 0, page := fun _ => ⟨0, 0⟩
    lru := fun _ => ⟨none, none⟩
    area := fun _ _ => ⟨0, ⟨0, fun _ => 0, 0, mutexLockInit⟩, listInit⟩ }

theorem zeroedBuddy_zeroed : zeroedBuddy.Zeroed := ⟨fun _ _ => rfl, fun _ _ => rfl⟩

/-- A machine boots when each pool has a block. -/
theorem exists_init {totalMemSize : Nat} (hpool : ∀ P, 0 < poolBlocks totalMemSize P) :
    ∃ b, BuddyState.Init totalMemSize ⟨b, fun _ => 0⟩ ∧
      BuddyInv (poolLo totalMemSize) (poolHi totalMemSize) b (initFree totalMemSize)
        fun _ => 0 := by
  obtain ⟨saddr, b, hinit, hinv⟩ := buddyInit_spec hpool zeroedBuddy_zeroed POOL_START
  exact ⟨b, ⟨⟨zeroedBuddy, saddr, zeroedBuddy_zeroed, hinit⟩, fun _ => rfl⟩, hinv⟩

/-- `alloc_pages` of the maximal order takes the first block of the list. -/
theorem BuddyInv.allocTop {lo hi : Pool → Nat} {b : Buddy} {fr : FreeLists}
    {out : Pool → Multiset Block} (h : BuddyInv lo hi b fr out) (hr : PoolRanges lo hi) {i : Nat}
    {rest : List Nat} (hfr : fr .kernel MAX_ORDER = i :: rest) (current : Tid) :
    ∃ b', b.allocPages KERNEL_POOL MAX_ORDER current = .ok (i, b') ∧
      b'.page = Function.update b.page i { count := 1, «private» := MAX_ORDER } ∧
      BuddyInv lo hi b' (setFree fr .kernel MAX_ORDER rest)
        (hold out .kernel ⟨i, MAX_ORDER⟩) := by
  have hpos : (b.area .kernel MAX_ORDER).nrFree > 0 := by
    rw [h.rep.nrFree .kernel MAX_ORDER (Nat.le_refl _), hfr, List.length_cons]
    omega
  have hpool : poolOfFlag KERNEL_POOL = .kernel := rfl
  obtain ⟨b₁, hpop, hpage₁, hrev⟩ := h.pop hr (Nat.le_refl _) hfr current
  obtain ⟨v, b₂, hrev, hpage₂, h₂⟩ := hrev { b₁.page i with «private» := MAX_ORDER }
  refine ⟨b₂.setPage i { b₂.page i with count := 1 }, ?_, ?_, h₂.setPage i _⟩
  · simp only [Buddy.allocPages, ASSERT_true (Nat.le_refl MAX_ORDER), ok_bind, hpool,
      Nat.add_sub_cancel_left, Buddy.allocFrom, if_pos hpos, Buddy.take, hpop, hrev,
      Nat.sub_self, Buddy.split, pure_eq_ok]
  · simp [hpage₂, hpage₁]

/-- `pool_init` takes the first kernel block, where the page tables and `mem_map` are. -/
def bootLive : Pool → Multiset Block := BuddyInv.hold (fun _ => 0) .kernel ⟨0, MAX_ORDER⟩

/-- The page allocator when the first kernel block is taken. -/
theorem exists_boot {totalMemSize : Nat} (hpool : ∀ P, 0 < poolBlocks totalMemSize P)
    (htotal : totalMemSize < 2 ^ 32) : ∃ b rest, initBlocks totalMemSize .kernel = 0 :: rest ∧
      (buddySystem totalMemSize).Reachable ⟨b, bootLive⟩ ∧
      BuddyInv (poolLo totalMemSize) (poolHi totalMemSize) b
        (setFree (initFree totalMemSize) .kernel MAX_ORDER rest) bootLive := by
  obtain ⟨b₀, hinit, hinv⟩ := exists_init hpool
  obtain ⟨n, hn⟩ := Nat.exists_eq_succ_of_ne_zero (hpool .kernel).ne'
  have hblocks : initBlocks totalMemSize .kernel
      = 0 :: (List.range' 1 n).map (2 ^ MAX_ORDER * ·) := by
    rw [initBlocks, hn, poolStart, List.range'_succ, List.map_cons]
    rfl
  have hfr : initFree totalMemSize .kernel MAX_ORDER
      = 0 :: (List.range' 1 n).map (2 ^ MAX_ORDER * ·) := by
    rw [initFree, if_pos rfl, hblocks]
  obtain ⟨b, halloc, -, hinv'⟩ := hinv.allocTop (poolRanges htotal) hfr 0
  have henabled : (buddySystem totalMemSize).enabled ⟨b₀, fun _ => 0⟩
      (.alloc KERNEL_POOL MAX_ORDER 0) := Nat.le_refl MAX_ORDER
  have hnext : (buddySystem totalMemSize).next ⟨b₀, fun _ => 0⟩ (.alloc KERNEL_POOL MAX_ORDER 0)
      = .ok ⟨b, bootLive⟩ := by
    simp only [buddySystem, BuddyState.next, halloc, ok_bind]
    rfl
  exact ⟨b, _, hblocks, (System.Reachable.init hinit).step henabled hnext, hinv'⟩

/-- A machine with 32 MiB has two kernel blocks, so behind `pool_init` there are pages of any
order. -/
theorem exists_boot_32M : ∃ b, (buddySystem 0x2000000).Reachable ⟨b, bootLive⟩ ∧
    ∀ flag order current, order ≤ MAX_ORDER →
      ∃ idx b', b.allocPages flag order current = .ok (idx, b') := by
  have hpool : ∀ P, 0 < poolBlocks 0x2000000 P := by
    intro P
    cases P <;> decide
  obtain ⟨b, rest, hrest, hs, hinv⟩ := exists_boot hpool (by decide)
  obtain rfl : [1024] = rest := (List.cons.inj (show [0, 1024] = 0 :: rest from hrest)).2
  refine ⟨b, hs, fun flag order current ho => ?_⟩
  rcases hinv.allocPages (poolRanges (by decide)) flag ho current with
    ⟨-, hempty⟩ | ⟨idx, b', fr, hok, -, -⟩
  · have hnone := hempty MAX_ORDER ho (Nat.le_refl _)
    cases hflag : poolOfFlag flag <;> rw [hflag] at hnone <;> exact absurd hnone (by decide)
  · exact ⟨idx, b', hok⟩

/-- A machine with 16 MiB boots, and then `alloc_pages` finds a page. -/
theorem exists_init_16M : ∃ b, BuddyState.Init 0x1000000 ⟨b, fun _ => 0⟩ ∧
    ∀ flag current, ∃ idx b', b.allocPages flag 0 current = .ok (idx, b') ∧
      (b'.page idx).count = 1 := by
  obtain ⟨b, hinit, hinv⟩ := exists_init poolBlocks_pos_16M
  refine ⟨b, hinit, fun flag current => ?_⟩
  rcases hinv.allocPages (poolRanges (by decide)) flag (Nat.zero_le MAX_ORDER) current with
    ⟨-, hempty⟩ | ⟨idx, b', fr, hok, hpage, -⟩
  · have hnone := hempty MAX_ORDER (Nat.zero_le _) (Nat.le_refl _)
    cases hpool : poolOfFlag flag <;> rw [hpool] at hnone <;> exact absurd hnone (by decide)
  · exact ⟨idx, b', hok, by simp [hpage]⟩

/-- The first `alloc_pages` of a user page on a machine with 16 MiB. -/
theorem reachable_alloc_16M : ∃ s blk, (buddySystem 0x1000000).Reachable s ∧
    s.live .kernel = 0 ∧ s.live .user = {blk} ∧ (s.buddy.page blk.idx).count = 1 := by
  obtain ⟨b, hinit, halloc⟩ := exists_init_16M
  obtain ⟨idx, b', hok, hcount⟩ := halloc USER_POOL 0
  have henabled : (buddySystem 0x1000000).enabled ⟨b, fun _ => 0⟩ (.alloc USER_POOL 0 0) :=
    Nat.zero_le MAX_ORDER
  have hnext : (buddySystem 0x1000000).next ⟨b, fun _ => 0⟩ (.alloc USER_POOL 0 0)
      = .ok ⟨b', Function.update (fun _ => 0) .user {⟨idx, 0⟩}⟩ := by
    simp only [buddySystem, BuddyState.next, hok, ok_bind]
    rfl
  have hs := (System.Reachable.init hinit).step henabled hnext
  exact ⟨_, ⟨idx, 0⟩, hs, by simp, by simp, hcount⟩

theorem buddySystem_tiled_16M : ∃ s blk, (buddySystem 0x1000000).Reachable s ∧
    s.live .user = {blk} ∧ ∃ fr : FreeLists, Tiles 1024 4096 MAX_ORDER
      (freeBlocks (fr .user) (MAX_ORDER + 1) + {blk}) := by
  obtain ⟨s, blk, hs, -, hlive, -⟩ := reachable_alloc_16M
  obtain ⟨⟨fr, hfr⟩, -⟩ := buddySystem_tiled poolBlocks_pos_16M (by decide) hs
  have htiles := (hfr .user).1
  rw [hlive] at htiles
  exact ⟨s, blk, hs, hlive, fr, htiles⟩

/-- Two buddies are never both on a list, whatever the lists are. -/
theorem RunInv.not_both (h : RunInv totalMemSize s.buddy out fr) {P : Pool} {o i : Nat}
    {xs : List Nat} (ho : o < MAX_ORDER) (hxs : IsList s.buddy.lru (s.buddy.area P o).pgList xs)
    (hi : 2 ^ (o + 1) ∣ i) : ¬(i ∈ xs ∧ i + 2 ^ o ∈ xs) := by
  rw [hxs.unique (h.buddy.rep.list P o ho.le)]
  exact h.buddy.coalesced P o i ho hi

/-- Without live blocks the free blocks are those of `buddy_init`. -/
theorem RunInv.free_eq_init (h : RunInv totalMemSize s.buddy out fr)
    (htotal : totalMemSize < 2 ^ 32) (hnone : ∀ P, out P = 0) (P : Pool) :
    (∀ o < MAX_ORDER, fr P o = []) ∧ (fr P MAX_ORDER).Perm (initBlocks totalMemSize P) := by
  have hr := poolRanges htotal
  have htiles := h.buddy.tiles P
  rw [hnone P, Multiset.add_zero] at htiles
  -- The free blocks tile the pool and no two buddies are free, so all are of the top order.
  have htop := htiles.order_eq_top (hr.lo_dvd P) (hr.hi_dvd P) fun i o ho hi hboth =>
    h.buddy.coalesced P o i ho hi
      ⟨(mem_freeBlocks.mp hboth.1).2, (mem_freeBlocks.mp hboth.2).2⟩
  constructor
  · intro o ho
    refine List.eq_nil_iff_forall_not_mem.mpr fun i hi => ?_
    exact Nat.ne_of_lt ho (htop ⟨i, o⟩ (mem_freeBlocks.mpr ⟨by simp only; omega, hi⟩))
  · -- both lists have every aligned index of the pool, once
    have hnodup : (fr P MAX_ORDER).Nodup :=
      (h.buddy.rep.list P MAX_ORDER (Nat.le_refl _)).linked.nodup
    have hpow : 0 < 2 ^ MAX_ORDER := Nat.two_pow_pos _
    have hinit : (initBlocks totalMemSize P).Nodup :=
      (List.nodup_range' 1).map fun a b hab => Nat.eq_of_mul_eq_mul_left hpow hab
    refine (List.perm_ext_iff_of_nodup hnodup hinit).mpr fun i => ?_
    have hmem := htiles.mem_iff_of_order_eq_top htop i
    have hlist : i ∈ fr P MAX_ORDER ↔
        ⟨i, MAX_ORDER⟩ ∈ freeBlocks (fr P) (MAX_ORDER + 1) := by
      simp [mem_freeBlocks]
    rw [hlist, hmem]
    simp only [initBlocks, List.mem_map, List.mem_range'_1, poolLo, poolHi]
    constructor
    · rintro ⟨⟨k, rfl⟩, hlo, hhi⟩
      exact ⟨k, ⟨Nat.le_of_mul_le_mul_left hlo hpow, Nat.lt_of_mul_lt_mul_left hhi⟩, rfl⟩
    · rintro ⟨k, ⟨hlo, hhi⟩, rfl⟩
      exact ⟨Dvd.intro _ rfl, Nat.mul_le_mul_left _ hlo, Nat.mul_lt_mul_of_pos_left hhi hpow⟩

/-- Coalescing is complete, for every run. In every reachable state no two buddies below the
maximal order are both free, and a live block with one reference can be freed. When no block
is live, each pool has the blocks of `buddy_init` and no others. -/
theorem buddySystem_coalesced (hpool : ∀ P, 0 < poolBlocks totalMemSize P)
    (htotal : totalMemSize < 2 ^ 32) :
    (∀ s₀, BuddyState.Init totalMemSize s₀ → ∀ P, IsList s₀.buddy.lru
      (s₀.buddy.area P MAX_ORDER).pgList (initBlocks totalMemSize P)) ∧
    ∀ s, (buddySystem totalMemSize).Reachable s →
      (∀ P o i xs, o < MAX_ORDER → IsList s.buddy.lru (s.buddy.area P o).pgList xs →
        2 ^ (o + 1) ∣ i → ¬(i ∈ xs ∧ i + 2 ^ o ∈ xs)) ∧
      (∀ P blk current, blk ∈ s.live P → (s.buddy.page blk.idx).count = 1 →
        ∃ s', s.next (.free P blk current) = .ok s' ∧
          s'.live = Function.update s.live P ((s.live P).erase blk)) ∧
      ((∀ P, s.live P = 0) → ∀ P,
        (∀ o < MAX_ORDER, IsList s.buddy.lru (s.buddy.area P o).pgList []) ∧
        ∃ xs, IsList s.buddy.lru (s.buddy.area P MAX_ORDER).pgList xs ∧
          xs.Perm (initBlocks totalMemSize P)) := by
  constructor
  · intro s₀ hinit P
    have hlist := (runInv_init hpool hinit).buddy.rep.list P MAX_ORDER (Nat.le_refl _)
    simpa [initFree] using hlist
  · intro s hs
    obtain ⟨fr, h⟩ := (buddySystem_inductive hpool htotal).reachable hs
    refine ⟨fun P o i xs ho hxs hi => h.not_both ho hxs hi, ?_, fun hnone P => ?_⟩
    · intro P blk current hlive hcount
      obtain ⟨s', fr', hok, -, hlive'⟩ := h.free_last htotal hlive hcount current
      exact ⟨s', hok, hlive'⟩
    · -- with no two free buddies and nothing live, only the blocks of `buddy_init` tile a pool
      obtain ⟨hlower, htop⟩ := h.free_eq_init htotal (fun Q => by simpa using hnone Q) P
      refine ⟨fun o ho => ?_, fr P MAX_ORDER, h.buddy.rep.list P _ (Nat.le_refl _), htop⟩
      have hlist := h.buddy.rep.list P o ho.le
      rwa [hlower o ho] at hlist

theorem buddySystem_coalesced_16M : ∃ s blk s' xs, (buddySystem 0x1000000).Reachable s ∧
    s.live .user = {blk} ∧ s.next (.free .user blk 0) = .ok s' ∧
    IsList s'.buddy.lru (s'.buddy.area .user MAX_ORDER).pgList xs ∧
    xs.Perm [1024, 2048, 3072] := by
  obtain ⟨s, blk, hs, hkernel, hlive, hcount⟩ := reachable_alloc_16M
  have hruns := (buddySystem_coalesced poolBlocks_pos_16M (by decide)).2
  have hmem : blk ∈ s.live .user := by simp [hlive]
  obtain ⟨s', hfree, hlive'⟩ := (hruns s hs).2.1 .user blk 0 hmem hcount
  have hs' : (buddySystem 0x1000000).Reachable s' :=
    hs.step (a := .free .user blk 0) ⟨hmem, hcount.ge⟩ hfree
  have hnone : ∀ P, s'.live P = 0 := by
    intro P
    cases P <;> simp [hlive', hlive, hkernel]
  obtain ⟨xs, hxs, hperm⟩ := ((hruns s' hs').2.2 hnone .user).2
  exact ⟨s, blk, s', xs, hs, hlive, hfree, hxs, hperm⟩

end

end Fizzos.Proofs
