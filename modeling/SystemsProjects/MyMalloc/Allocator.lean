import SystemsProjects.Lib.LittleEndian
import SystemsProjects.Lib.Transition

/-!
# An allocator on `sbrk` (`my_malloc.c`)

`my_malloc` and `my_free` over byte memory, with 64-bit addresses that wrap around. The system
decides whether `sbrk` is granted; a break outside the address space never is.

- `mallocSystem`: calls of the two functions, and stores of the clients into the bytes they
  have asked for.
- `Promise`: what a call promises, and the list after it.
- `myMalloc_safe`: runs keep the promise when no call asks `sbrk` for a number of bytes that is
  no `intptr_t`.

Nothing is ever taken again: `my_free` marks a block, and `my_malloc` asks `sbrk` each time and
links the new block behind the last one. The invariant is that the list is made of the headers
of all blocks, one behind the other in memory, and that stores of the clients reach no header.
What can go wrong is a size so large that `BLOCK_SIZE + size` is no `intptr_t`: then `sbrk` is
asked for less than the block needs.
-/

namespace SystemsProjects

namespace MyMalloc

open LittleEndian TransitionSystem

/-- The fields of `block_t`. -/
inductive BlockField where
  | size
  | free
  | next
  deriving DecidableEq

/-- Where the field stands in the header. -/
def BlockField.offset : BlockField → Nat
  | .size => 0
  | .free => 8
  | .next => 16

/-- The bytes of the field. -/
def BlockField.width : BlockField → Nat
  | .size => 8
  | .free => 4
  | .next => 8

/-- `BLOCK_SIZE`, with the padding behind `free`. -/
def blockSize : Nat := 24

/-- The number of addresses. -/
def space : Nat := 18446744073709551616

/-- `(void *) -1` -/
def sbrkFailed : Nat := 18446744073709551615

/-- The memory, `head`, and the program break. -/
structure Arena where
  mem : ByteMemory
  head : Nat
  brk : Nat

namespace Arena

/-- `block->f` -/
def get (h : Arena) (block : Nat) (f : BlockField) : Nat :=
  load space h.mem f.width (block + f.offset)

/-- `block->f = v` -/
def set (h : Arena) (block : Nat) (f : BlockField) (v : Nat) : Arena :=
  { h with mem := store space h.mem f.width (block + f.offset) v }

end Arena

/-- `sbrk(increment)`: what it returns, and the break. -/
def sbrk (grants : Bool) (brk : Nat) (increment : Int) : Nat × Nat :=
  if grants ∧ 0 ≤ brk + increment ∧ brk + increment < space then
    (brk, (brk + increment).toNat)
  else (sbrkFailed, brk)

/-- `BLOCK_SIZE + size`, a `size_t`, as the `intptr_t` that `sbrk` is given. -/
def increment (size : BitVec 64) : Int := (BitVec.ofNat 64 blockSize + size).toInt

/-- `while(current->next)`, at most `n` rounds. -/
def lastBlock (h : Arena) : Nat → Nat → Option Nat
  | 0, _ => none
  | n + 1, current =>
    if h.get current .next ≠ 0 then lastBlock h n (h.get current .next) else some current

/-- The header of a new block. -/
def writeHeader (h : Arena) (block size : Nat) : Arena :=
  let h := h.set block .size size
  let h := h.set block .free 0
  h.set block .next 0

/-- `if(!head)`: the block is the first one, or it goes behind the last. -/
def linkBlock (h : Arena) (block n : Nat) : Option Arena :=
  if h.head = 0 then some { h with head := block }
  else
    match lastBlock h n h.head with
    | none => none
    | some current => some (h.set current .next block)

/-- `my_malloc`, with at most `n` rounds of the loop. -/
def myMalloc (h : Arena) (size : BitVec 64) (grants : Bool) (n : Nat) : Option (Nat × Arena) :=
  if size = 0 then some (0, h)
  else
    let (raw, brk) := sbrk grants h.brk (increment size)
    let h := { h with brk }
    if raw = sbrkFailed then some (0, h)
    else
      match linkBlock (writeHeader h raw size.toNat) raw n with
      | none => none
      | some h => some ((raw + blockSize) % space, h)

/-- `my_free` -/
def myFree (h : Arena) (ptr : Nat) : Arena :=
  if ptr = 0 then h else h.set ((ptr + space - blockSize) % space) .free 1

/-! ## Runs -/

/-- The allocator, with the pointers it has returned and the sizes that were asked for. -/
structure MallocState where
  arena : Arena
  returned : List (Nat × Nat)

/-- The two calls, and a client's store. -/
inductive MallocAction where
  | malloc (size : BitVec 64) (grants : Bool)
  | free (ptr : Nat)
  | store (addr : Nat) (byte : BitVec 8)

/-- A step. Clients free what was returned, and store into the bytes they have asked for. -/
inductive MallocStep : MallocState → MallocAction → MallocState → Prop where
  | malloc {s : MallocState} {size : BitVec 64} {grants : Bool} {n ptr : Nat} {h : Arena}
    (hcall : myMalloc s.arena size grants n = some (ptr, h)) :
    MallocStep s (.malloc size grants)
      ⟨h, if ptr = 0 then s.returned else s.returned ++ [(ptr, size.toNat)]⟩
  | free {s : MallocState} {ptr : Nat} (hptr : ptr = 0 ∨ ptr ∈ s.returned.map Prod.fst) :
    MallocStep s (.free ptr) ⟨myFree s.arena ptr, s.returned⟩
  | store {s : MallocState} {addr : Nat} {byte : BitVec 8}
    (haddr : ∃ x ∈ s.returned, x.1 ≤ addr ∧ addr < x.1 + x.2) :
    MallocStep s (.store addr byte)
      ⟨{ s.arena with mem := Function.update s.arena.mem (addr % space) byte }, s.returned⟩

/-- Before the first call. The break is an address, and not the null pointer. -/
structure MallocStart (s : MallocState) : Prop where
  head_eq : s.arena.head = 0
  brk_pos : 0 < s.arena.brk
  brk_lt : s.arena.brk < space
  returned_eq : s.returned = []

/-- The runs from an empty list on. -/
def mallocSystem : TransitionSystem MallocState MallocAction := ⟨MallocStart, MallocStep⟩

/-! ## What is promised -/

/-- The list from `a` is these blocks: their pointers stand behind the headers, and the headers
hold the sizes. -/
def Lists (h : Arena) : List (Nat × Nat) → Nat → Prop
  | [], a => a = 0
  | x :: rest, a =>
    a ≠ 0 ∧ x.1 = a + blockSize ∧ h.get a .size = x.2 ∧ Lists h rest (h.get a .next)

/-- A new pointer `p` for `n` bytes: they lie below the break, and apart from the header and the
bytes of every earlier one. -/
structure FreshBlock (s s' : MallocState) (p n : Nat) : Prop where
  below : p + n ≤ s'.arena.brk
  apart : ∀ x ∈ s.returned, p + n ≤ x.1 - blockSize ∨ x.1 + x.2 ≤ p

/-- A step returns fresh memory, if any, and leaves all blocks on the list, each once. -/
structure Promise (s s' : MallocState) : Prop where
  fresh : ∀ p n, s'.returned = s.returned ++ [(p, n)] → FreshBlock s s' p n
  listed : Lists s'.arena s'.returned s'.arena.head
  once : (s'.returned.map Prod.fst).Nodup

/-- The step is no call for which `sbrk` is granted a number of bytes that, with the header, is no
`intptr_t`. -/
def Fits (s : MallocState) : MallocAction → Prop
  | .malloc size grants =>
    size ≠ 0 → sbrk grants s.arena.brk (increment size) ≠ (sbrkFailed, s.arena.brk) →
      size.toNat + blockSize < 9223372036854775808
  | _ => True

/-! ## Headers -/

section Headers

variable {h : Arena} {b c v : Nat} {f g : BlockField}

theorem offset_add_width_le (f : BlockField) : f.offset + f.width ≤ blockSize := by
  cases f <;> decide

theorem get_set (hb : b + blockSize ≤ space) (hv : v < 256 ^ f.width) :
    (h.set b f v).get b f = v := by
  have hf := offset_add_width_le f
  exact load_store (by omega) hv

theorem get_set_of_ne (hb : b + blockSize ≤ space) (hne : f ≠ g) :
    (h.set b f v).get b g = h.get b g := by
  have hf := offset_add_width_le f
  have hg := offset_add_width_le g
  refine load_store_of_apart (by omega) (by omega) ?_
  cases f <;> cases g <;> simp [BlockField.offset, BlockField.width] at hne ⊢

theorem get_set_of_apart (hb : b + blockSize ≤ space) (hc : c + blockSize ≤ space)
    (hapart : b + blockSize ≤ c ∨ c + blockSize ≤ b) : (h.set b f v).get c g = h.get c g := by
  have hf := offset_add_width_le f
  have hg := offset_add_width_le g
  exact load_store_of_apart (by omega) (by omega) (by omega)

theorem writeHeader_size (hb : b + blockSize ≤ space) (hv : v < space) :
    (writeHeader h b v).get b .size = v := by
  unfold writeHeader
  dsimp only
  rw [get_set_of_ne hb (by decide), get_set_of_ne hb (by decide), get_set hb hv]

theorem writeHeader_next (hb : b + blockSize ≤ space) : (writeHeader h b v).get b .next = 0 :=
  get_set hb (by decide)

theorem writeHeader_of_apart (hb : b + blockSize ≤ space) (hc : c + blockSize ≤ space)
    (hapart : b + blockSize ≤ c ∨ c + blockSize ≤ b) :
    (writeHeader h b v).get c g = h.get c g := by
  unfold writeHeader
  dsimp only
  rw [get_set_of_apart hb hc hapart, get_set_of_apart hb hc hapart, get_set_of_apart hb hc hapart]

end Headers

/-! ## The list -/

section List

variable {h h' : Arena} {l : List (Nat × Nat)} {x : Nat × Nat} {a b n : Nat}

/-- The headers are in front of the pointers. -/
theorem Lists.congr (hl : Lists h l a)
    (hsame : ∀ x ∈ l, ∀ f, f ≠ .free →
      h'.get (x.1 - blockSize) f = h.get (x.1 - blockSize) f) : Lists h' l a := by
  induction l generalizing a with
  | nil => exact hl
  | cons x rest ih =>
    obtain ⟨hne, hptr, hsize, hrest⟩ := hl
    have hx := hsame x (List.mem_cons_self ..)
    have ha : x.1 - blockSize = a := by omega
    rw [ha] at hx
    refine ⟨hne, hptr, ?_, ?_⟩
    · rw [hx .size (by decide), hsize]
    · rw [hx .next (by decide)]
      exact ih hrest fun y hy => hsame y (List.mem_cons_of_mem _ hy)

/-- A block behind the last one. -/
theorem Lists.concat (hl : Lists h (l ++ [x]) a)
    (hsize : ∀ y ∈ l ++ [x], h'.get (y.1 - blockSize) .size = h.get (y.1 - blockSize) .size)
    (hnext : ∀ y ∈ l, h'.get (y.1 - blockSize) .next = h.get (y.1 - blockSize) .next)
    (hlast : h'.get (x.1 - blockSize) .next = b) (hb : b ≠ 0) (hbsize : h'.get b .size = n)
    (hbnext : h'.get b .next = 0) : Lists h' (l ++ [x] ++ [(b + blockSize, n)]) a := by
  induction l generalizing a with
  | nil =>
    obtain ⟨hne, hptr, hsizex, -⟩ := hl
    have hx := hsize x (List.mem_cons_self ..)
    have ha : x.1 - blockSize = a := by omega
    rw [ha] at hx hlast
    refine ⟨hne, hptr, ?_, ?_⟩
    · rw [hx, hsizex]
    · rw [hlast]
      exact ⟨hb, rfl, hbsize, hbnext⟩
  | cons y rest ih =>
    obtain ⟨hne, hptr, hsizey, hrest⟩ := hl
    have hy := hsize y (List.mem_cons_self ..)
    have hynext := hnext y (List.mem_cons_self ..)
    have ha : y.1 - blockSize = a := by omega
    rw [ha] at hy hynext
    refine ⟨hne, hptr, ?_, ?_⟩
    · rw [hy, hsizey]
    · rw [hynext]
      exact ih hrest (fun z hz => hsize z (List.mem_cons_of_mem _ hz))
        fun z hz => hnext z (List.mem_cons_of_mem _ hz)

/-- The loop of `my_malloc` ends, and only at the last block. -/
theorem Lists.lastBlock (hl : Lists h (l ++ [x]) a) :
    (∀ c, lastBlock h n a = some c → c = x.1 - blockSize) ∧
      (l.length < n → MyMalloc.lastBlock h n a = some (x.1 - blockSize)) := by
  induction l generalizing a n with
  | nil =>
    obtain ⟨-, hptr, -, hrest⟩ := hl
    have hrest : h.get a .next = 0 := hrest
    have ha : x.1 - blockSize = a := by omega
    cases n with
    | zero => exact ⟨nofun, nofun⟩
    | succ n =>
      rw [MyMalloc.lastBlock, if_neg (not_not_intro hrest), ha]
      exact ⟨fun c hc => (Option.some.inj hc).symm, fun _ => rfl⟩
  | cons y rest ih =>
    obtain ⟨-, -, -, hrest⟩ := hl
    have hne : h.get a .next ≠ 0 := by
      cases rest with
      | nil => exact hrest.1
      | cons z rest => exact hrest.1
    cases n with
    | zero => exact ⟨nofun, nofun⟩
    | succ n =>
      rw [MyMalloc.lastBlock, if_pos hne]
      obtain ⟨honly, hends⟩ := ih (n := n) hrest
      exact ⟨honly, fun hlt => hends (Nat.lt_of_succ_lt_succ hlt)⟩

end List

/-! ## What is kept -/

/-- The blocks lie below the break, one behind the other, and are the list. -/
structure MallocInv (s : MallocState) : Prop where
  brk_pos : 0 < s.arena.brk
  brk_lt : s.arena.brk < space
  lists : Lists s.arena s.returned s.arena.head
  inside : ∀ x ∈ s.returned, blockSize < x.1 ∧ x.1 + x.2 ≤ s.arena.brk
  apart : s.returned.Pairwise fun x y => x.1 + x.2 ≤ y.1 - blockSize

section Invariant

variable {s s' : MallocState} {size : BitVec 64} {grants : Bool} {n m ptr addr : Nat} {h : Arena}
  {x y : Nat × Nat} {byte : BitVec 8}

/-- Of two blocks one lies behind the other. -/
theorem MallocInv.cases (hinv : MallocInv s) (hx : x ∈ s.returned) (hy : y ∈ s.returned) :
    x = y ∨ x.1 + x.2 ≤ y.1 - blockSize ∨ y.1 + y.2 ≤ x.1 - blockSize := by
  let Apart : Nat × Nat → Nat × Nat → Prop := fun x y =>
    x = y ∨ x.1 + x.2 ≤ y.1 - blockSize ∨ y.1 + y.2 ≤ x.1 - blockSize
  have hforth : s.returned.Pairwise Apart := hinv.apart.imp fun hle => .inr (.inl hle)
  have hback : s.returned.Pairwise (flip Apart) := hinv.apart.imp fun hle => .inr (.inr hle)
  exact List.Pairwise.forall_of_forall_of_flip (fun _ _ => .inl rfl) hforth hback hx hy

theorem MallocInv.once (hinv : MallocInv s) : (s.returned.map Prod.fst).Nodup := by
  rw [List.Nodup, List.pairwise_map]
  refine hinv.apart.imp_of_mem fun hx hy hle => ?_
  have hx' := hinv.inside _ hx
  have hy' := hinv.inside _ hy
  have hpos : 0 < blockSize := by decide
  omega

theorem MallocStart.inv (h : MallocStart s) : MallocInv s where
  brk_pos := h.brk_pos
  brk_lt := h.brk_lt
  lists := by
    rw [h.returned_eq]
    exact h.head_eq
  inside x hx := by
    rw [h.returned_eq] at hx
    cases hx
  apart := by
    rw [h.returned_eq]
    exact .nil

/-- The memory of a new block at the break. -/
def extended (s : MallocState) (m : Nat) : Arena :=
  writeHeader { s.arena with brk := s.arena.brk + blockSize + m } s.arena.brk m

/-- A new block at the end of the arena changes no header of an old one. -/
theorem MallocInv.extended_get (hinv : MallocInv s) (hfit : s.arena.brk + blockSize + m < space)
    (hx : x ∈ s.returned) (f : BlockField) :
    (extended s m).get (x.1 - blockSize) f = s.arena.get (x.1 - blockSize) f := by
  have hx' := hinv.inside x hx
  exact writeHeader_of_apart (by omega) (by omega) (by omega)

/-- A granted call puts a block at the old break, behind all others. -/
theorem MallocInv.link (hinv : MallocInv s) (hfit : s.arena.brk + blockSize + m < space)
    (hlink : linkBlock (extended s m) s.arena.brk n = some h) :
    MallocInv ⟨h, s.returned ++ [(s.arena.brk + blockSize, m)]⟩ ∧
      h.brk = s.arena.brk + blockSize + m := by
  have hpos := hinv.brk_pos
  have hsize : (extended s m).get s.arena.brk .size = m := writeHeader_size (by omega) (by omega)
  have hnext : (extended s m).get s.arena.brk .next = 0 := writeHeader_next (by omega)
  have hlists : Lists (extended s m) s.returned s.arena.head :=
    hinv.lists.congr fun x hx f _ => hinv.extended_get hfit hx f
  -- only the list differs between the two branches
  have hmain : h.brk = s.arena.brk + blockSize + m ∧
      Lists h (s.returned ++ [(s.arena.brk + blockSize, m)]) h.head := by
    unfold linkBlock at hlink
    split at hlink
    · next hhead =>
      obtain rfl := Option.some.inj hlink
      have hempty : s.returned = [] := by
        rcases hcase : s.returned with _ | ⟨x, rest⟩
        · rfl
        · rw [hcase] at hlists
          exact absurd hhead hlists.1
      rw [hempty]
      exact ⟨rfl, Nat.ne_of_gt hpos, rfl, hsize, hnext⟩
    · next hhead =>
      rcases List.eq_nil_or_concat s.returned with hempty | ⟨l, x, hconcat⟩
      · rw [hempty] at hlists
        exact absurd hlists hhead
      · rw [List.concat_eq_append] at hconcat
        have hinside := hinv.inside
        have hpairwise := hinv.apart
        rw [hconcat] at hlists hinside hpairwise ⊢
        have hx := hinside x (List.mem_append_right _ (List.mem_singleton_self x))
        obtain ⟨-, -, hbefore⟩ := List.pairwise_append.mp hpairwise
        split at hlink
        · cases hlink
        · next c hc =>
          obtain rfl := hlists.lastBlock.1 c hc
          obtain rfl := Option.some.inj hlink
          have hlast : x.1 - blockSize + blockSize ≤ space := by omega
          refine ⟨rfl, hlists.concat ?_ ?_ ?_ (Nat.ne_of_gt hpos) ?_ ?_⟩
          · intro y hy
            rcases List.mem_append.mp hy with hy | hy
            · have hyx := hbefore y hy x (List.mem_singleton_self x)
              have hy' := hinside y (List.mem_append_left _ hy)
              exact get_set_of_apart hlast (by omega) (by omega)
            · obtain rfl := List.mem_singleton.mp hy
              exact get_set_of_ne hlast (by decide)
          · intro y hy
            have hyx := hbefore y hy x (List.mem_singleton_self x)
            have hy' := hinside y (List.mem_append_left _ hy)
            exact get_set_of_apart hlast (by omega) (by omega)
          · exact get_set hlast (show s.arena.brk < space by omega)
          · rw [get_set_of_apart hlast (by omega) (by omega)]
            exact hsize
          · rw [get_set_of_apart hlast (by omega) (by omega)]
            exact hnext
  obtain ⟨hbrk, hlisted⟩ := hmain
  refine ⟨⟨?_, ?_, hlisted, ?_, ?_⟩, hbrk⟩
  · show 0 < h.brk
    omega
  · show h.brk < space
    omega
  · intro x hx
    show blockSize < x.1 ∧ x.1 + x.2 ≤ h.brk
    rcases List.mem_append.mp hx with hx | hx
    · have hx' := hinv.inside x hx
      omega
    · obtain rfl := List.mem_singleton.mp hx
      dsimp only
      omega
  · refine List.pairwise_append.mpr ⟨hinv.apart, List.pairwise_singleton .., ?_⟩
    intro x hx y hy
    obtain rfl := List.mem_singleton.mp hy
    have hx' := hinv.inside x hx
    dsimp only
    omega

/-- The loop of a granted call ends. -/
theorem MallocInv.link_isSome (hinv : MallocInv s) (hfit : s.arena.brk + blockSize + m < space)
    (hn : s.returned.length ≤ n) : ∃ h, linkBlock (extended s m) s.arena.brk n = some h := by
  have hlists : Lists (extended s m) s.returned s.arena.head :=
    hinv.lists.congr fun x hx f _ => hinv.extended_get hfit hx f
  unfold linkBlock
  split
  · exact ⟨_, rfl⟩
  · next hhead =>
    rcases List.eq_nil_or_concat s.returned with hempty | ⟨l, x, hconcat⟩
    · rw [hempty] at hlists
      exact absurd hlists hhead
    · rw [List.concat_eq_append] at hconcat
      rw [hconcat] at hlists hn
      rw [List.length_append, List.length_singleton] at hn
      have hlast : lastBlock (extended s m) n (extended s m).head = some (x.1 - blockSize) :=
        hlists.lastBlock.2 hn
      rw [hlast]
      exact ⟨_, rfl⟩

/-! ## Steps -/

/-- The request of `sbrk` wraps around at the width of `size_t`. -/
theorem increment_toNat (size : BitVec 64) :
    (BitVec.ofNat 64 blockSize + size).toNat = (blockSize + size.toNat) % space := by
  rw [BitVec.toNat_add, BitVec.toNat_ofNat]
  rfl

/-- Below the limit the header is added as it should be. -/
theorem increment_of_lt (h : size.toNat + blockSize < 9223372036854775808) :
    increment size = size.toNat + blockSize := by
  have hnat : (BitVec.ofNat 64 blockSize + size).toNat = blockSize + size.toNat := by
    rw [increment_toNat]
    exact Nat.mod_eq_of_lt (by unfold space; omega)
  rw [increment, BitVec.toInt_eq_toNat_of_lt (by omega), hnat]
  omega

/-- From the limit on `sbrk` is asked for less. -/
theorem increment_lt (h : 9223372036854775808 ≤ size.toNat + blockSize) :
    increment size < size.toNat + blockSize := by
  have hsize := size.isLt
  have hnat := increment_toNat size
  rw [increment, BitVec.toInt_eq_toNat_cond, hnat]
  unfold space blockSize at *
  split <;> omega

/-- `sbrk` fails and moves nothing, or it grants the request and stays inside the address space. -/
theorem sbrk_cases (grants : Bool) (brk : Nat) (k : Int) :
    sbrk grants brk k = (sbrkFailed, brk) ∨
      sbrk grants brk k = (brk, (brk + k).toNat) ∧ 0 ≤ brk + k ∧ brk + k < space := by
  unfold sbrk
  split
  · next h => exact .inr ⟨rfl, h.2⟩
  · exact .inl rfl

/-- A call that fits: nothing is returned and the memory stays, or it returns the bytes behind
the header of a new block. -/
theorem myMalloc_cases (hfits : Fits s (.malloc size grants)) :
    (∀ n, myMalloc s.arena size grants n = some (0, s.arena)) ∨
      s.arena.brk + blockSize + size.toNat < space ∧
        ∀ n, myMalloc s.arena size grants n =
          (linkBlock (extended s size.toNat) s.arena.brk n).map
            fun h => (s.arena.brk + blockSize, h) := by
  unfold myMalloc
  by_cases hzero : size = 0
  · exact .inl fun n => if_pos hzero
  · simp only [if_neg hzero]
    by_cases hrefused : sbrk grants s.arena.brk (increment size) = (sbrkFailed, s.arena.brk)
    · left
      intro n
      simp only [hrefused, if_pos]
    · -- `sbrk` grants it, and no sum wraps
      have hlimit := hfits hzero hrefused
      obtain ⟨hgranted, -, hlt⟩ := (sbrk_cases ..).resolve_left hrefused
      rw [increment_of_lt hlimit] at hgranted hlt
      have hfit : s.arena.brk + blockSize + size.toNat < space := by omega
      have hbrk : ((s.arena.brk : Int) + (size.toNat + blockSize)).toNat =
          s.arena.brk + blockSize + size.toNat := by omega
      have hne : s.arena.brk ≠ sbrkFailed := by
        unfold space sbrkFailed blockSize at *
        omega
      have hptr : (s.arena.brk + blockSize) % space = s.arena.brk + blockSize :=
        Nat.mod_eq_of_lt (by omega)
      refine .inr ⟨hfit, fun n => ?_⟩
      rw [increment_of_lt hlimit]
      simp only [hgranted, hbrk, if_neg hne, hptr]
      show (match linkBlock (extended s size.toNat) s.arena.brk n with
        | none => none
        | some h => some (s.arena.brk + blockSize, h)) = _
      cases linkBlock (extended s size.toNat) s.arena.brk n <;> rfl

/-- What a step keeps and promises. -/
theorem MallocInv.promise (hinv' : MallocInv s')
    (hfresh : ∀ p m, s'.returned = s.returned ++ [(p, m)] → FreshBlock s s' p m) :
    Promise s s' := ⟨hfresh, hinv'.lists, hinv'.once⟩

/-- A call that returns a pointer is told from one that returns null. -/
theorem returned_ne_concat {l : List (Nat × Nat)} {x : Nat × Nat} : l ≠ l ++ [x] := by
  intro heq
  have hlen := congrArg List.length heq
  rw [List.length_append, List.length_singleton] at hlen
  omega

/-- A store outside the headers leaves the fields alone. -/
theorem get_update {a : Nat} {f : BlockField} (ha : a + blockSize ≤ space) (haddr : addr < space)
    (hapart : addr < a ∨ a + blockSize ≤ addr) :
    ({ h with mem := Function.update h.mem (addr % space) byte } : Arena).get a f = h.get a f := by
  have hf := offset_add_width_le f
  refine load_congr fun i hi => Function.update_of_ne ?_ ..
  rw [Nat.mod_eq_of_lt (by omega), Nat.mod_eq_of_lt haddr]
  omega

/-- A call of `my_malloc` that fits. -/
theorem MallocInv.malloc (hinv : MallocInv s) (hfits : Fits s (.malloc size grants))
    (hcall : myMalloc s.arena size grants n = some (ptr, h))
    (hs' : s' = ⟨h, if ptr = 0 then s.returned else s.returned ++ [(ptr, size.toNat)]⟩) :
    MallocInv s' ∧ Promise s s' := by
  rcases myMalloc_cases hfits with hnull | ⟨hfit, hblock⟩
  · rw [hnull] at hcall
    obtain ⟨rfl, rfl⟩ := Prod.mk.inj (Option.some.inj hcall)
    rw [if_pos rfl] at hs'
    obtain rfl : s' = s := hs'
    exact ⟨hinv, hinv.promise fun _ _ heq => absurd heq returned_ne_concat⟩
  · rw [hblock] at hcall
    obtain ⟨h', hlink, heq⟩ := Option.map_eq_some_iff.mp hcall
    obtain ⟨rfl, rfl⟩ := Prod.mk.inj heq
    obtain ⟨hinv', hbrk⟩ := hinv.link hfit hlink
    have hptr : s.arena.brk + blockSize ≠ 0 := by
      have hpos := hinv.brk_pos
      omega
    rw [if_neg hptr] at hs'
    subst hs'
    refine ⟨hinv', hinv'.promise fun p m heq => ?_⟩
    obtain ⟨rfl, rfl⟩ := Prod.mk.inj (List.cons.inj (List.append_cancel_left heq)).1
    constructor
    · show s.arena.brk + blockSize + size.toNat ≤ h'.brk
      exact Nat.le_of_eq hbrk.symm
    · intro x hx
      have hx' := hinv.inside x hx
      omega

/-- `my_free` writes into the header of the block, and not into its list fields. -/
theorem MallocInv.myFree_get (hinv : MallocInv s)
    (hptr : ptr = 0 ∨ ptr ∈ s.returned.map Prod.fst) (hx : x ∈ s.returned) {f : BlockField}
    (hf : f ≠ .free) :
    (myFree s.arena ptr).get (x.1 - blockSize) f = s.arena.get (x.1 - blockSize) f := by
  unfold myFree
  split
  · rfl
  · next hne =>
    obtain ⟨y, hy, rfl⟩ := List.mem_map.mp (hptr.resolve_left hne)
    have hx' := hinv.inside x hx
    have hy' := hinv.inside y hy
    have hlt := hinv.brk_lt
    have hblock : (y.1 + space - blockSize) % space = y.1 - blockSize := by
      have hsub : y.1 + space - blockSize = y.1 - blockSize + space := by omega
      rw [hsub, Nat.add_mod_right, Nat.mod_eq_of_lt (by omega)]
    rw [hblock]
    rcases hinv.cases hx hy with rfl | hapart
    · exact get_set_of_ne (by omega) (Ne.symm hf)
    · exact get_set_of_apart (by omega) (by omega) (by omega)

/-- `my_free` moves neither the list nor the break. -/
theorem myFree_head_brk (h : Arena) (ptr : Nat) :
    (myFree h ptr).head = h.head ∧ (myFree h ptr).brk = h.brk := by
  unfold myFree
  split <;> exact ⟨rfl, rfl⟩

/-- `my_free` of null or of a returned pointer keeps the invariant. -/
theorem MallocInv.free (hinv : MallocInv s)
    (hptr : ptr = 0 ∨ ptr ∈ s.returned.map Prod.fst) :
    MallocInv ⟨myFree s.arena ptr, s.returned⟩ := by
  obtain ⟨hhead, hbrk⟩ := myFree_head_brk s.arena ptr
  constructor
  · show 0 < (myFree s.arena ptr).brk
    rw [hbrk]
    exact hinv.brk_pos
  · show (myFree s.arena ptr).brk < space
    rw [hbrk]
    exact hinv.brk_lt
  · show Lists (myFree s.arena ptr) s.returned (myFree s.arena ptr).head
    rw [hhead]
    exact hinv.lists.congr fun x hx f hf => hinv.myFree_get hptr hx hf
  · intro x hx
    show blockSize < x.1 ∧ x.1 + x.2 ≤ (myFree s.arena ptr).brk
    rw [hbrk]
    exact hinv.inside x hx
  · exact hinv.apart

/-- The bytes of a block are outside all headers. -/
theorem MallocInv.store (hinv : MallocInv s) (byte : BitVec 8)
    (haddr : ∃ x ∈ s.returned, x.1 ≤ addr ∧ addr < x.1 + x.2) :
    MallocInv ⟨{ s.arena with mem := Function.update s.arena.mem (addr % space) byte },
      s.returned⟩ := by
  refine ⟨hinv.brk_pos, hinv.brk_lt, hinv.lists.congr fun x hx f _ => ?_, hinv.inside,
    hinv.apart⟩
  obtain ⟨y, hy, hle, hlt⟩ := haddr
  have hx' := hinv.inside x hx
  have hy' := hinv.inside y hy
  have hbrk := hinv.brk_lt
  refine get_update (by omega) (by omega) ?_
  rcases hinv.cases hx hy with rfl | hapart <;> omega

/-- A step that fits keeps the invariant and the promise. -/
theorem MallocInv.step {a : MallocAction} (hinv : MallocInv s) (hfits : Fits s a)
    (hstep : MallocStep s a s') : MallocInv s' ∧ Promise s s' := by
  cases hstep with
  | malloc hcall => exact hinv.malloc hfits hcall rfl
  | free hptr =>
    have hinv' := hinv.free hptr
    exact ⟨hinv', hinv'.promise fun _ _ heq => absurd heq returned_ne_concat⟩
  | @store addr byte haddr =>
    have hinv' := hinv.store byte haddr
    exact ⟨hinv', hinv'.promise fun _ _ heq => absurd heq returned_ne_concat⟩

/-- The invariant holds in every run whose requests fit. -/
theorem mallocInv_reachable (hreach : (mallocSystem.restrict Fits).Reachable s) : MallocInv s := by
  refine hreach.invariant (P := MallocInv) (fun _ => MallocStart.inv) ?_
  rintro s a s' - hinv ⟨hfits, hstep⟩
  exact (hinv.step hfits hstep).1

/-- Every call that fits returns. -/
theorem MallocInv.returns (hinv : MallocInv s) (hfits : Fits s (.malloc size grants)) :
    ∃ s', MallocStep s (.malloc size grants) s' := by
  rcases myMalloc_cases hfits with hnull | ⟨hfit, hblock⟩
  · exact ⟨_, .malloc (hnull 0)⟩
  · obtain ⟨h, hlink⟩ := hinv.link_isSome hfit (Nat.le_refl _)
    have hcall : myMalloc s.arena size grants s.returned.length =
        some (s.arena.brk + blockSize, h) := by
      rw [hblock, hlink]
      rfl
    exact ⟨_, .malloc hcall⟩

/-! ## The calls that do not fit -/

theorem linkBlock_brk {b : Nat} {h' : Arena} (hlink : linkBlock h b n = some h') :
    h'.brk = h.brk := by
  unfold linkBlock at hlink
  split at hlink
  · obtain rfl := Option.some.inj hlink
    rfl
  · split at hlink
    · cases hlink
    · obtain rfl := Option.some.inj hlink
      rfl

/-- A call that does not fit returns bytes above the break. -/
theorem not_promise_of_not_fits {a : MallocAction} (hstep : MallocStep s a s')
    (hfits : ¬ Fits s a) (hbrk : s.arena.brk + blockSize < space) : ¬ Promise s s' := by
  cases hstep with
  | @malloc size grants n ptr h hcall =>
    obtain ⟨hzero, hfits⟩ := Classical.not_imp.mp hfits
    obtain ⟨hrefused, hlimit⟩ := Classical.not_imp.mp hfits
    obtain ⟨hgranted, hlo, hhi⟩ := (sbrk_cases ..).resolve_left hrefused
    -- `sbrk` was asked for less than size and header, by the wrap or the sign
    have hless := increment_lt (Nat.not_lt.mp hlimit)
    have hne : s.arena.brk ≠ sbrkFailed := by
      unfold space sbrkFailed blockSize at *
      omega
    have hptr : (s.arena.brk + blockSize) % space = s.arena.brk + blockSize :=
      Nat.mod_eq_of_lt hbrk
    unfold myMalloc at hcall
    simp only [if_neg hzero, hgranted, if_neg hne, hptr] at hcall
    split at hcall
    · cases hcall
    · next h' hlink =>
      obtain ⟨rfl, rfl⟩ := Prod.mk.inj (Option.some.inj hcall)
      have hnew : h'.brk = (s.arena.brk + increment size).toNat := linkBlock_brk hlink
      have hpos : s.arena.brk + blockSize ≠ 0 := by
        unfold blockSize
        omega
      intro hpromise
      -- the pointer counts as returned, with a size that ends above the break
      have hreturned : (if s.arena.brk + blockSize = 0 then s.returned
          else s.returned ++ [(s.arena.brk + blockSize, size.toNat)]) =
          s.returned ++ [(s.arena.brk + blockSize, size.toNat)] := if_neg hpos
      have hfresh := hpromise.fresh (s.arena.brk + blockSize) size.toNat hreturned
      have hbelow : s.arena.brk + blockSize + size.toNat ≤ h'.brk := hfresh.below
      omega
  | free => exact absurd trivial hfits
  | store => exact absurd trivial hfits

end Invariant

/-- In a run whose calls all fit, every step keeps the promise, and the next call that fits
returns. A call that does not fit, and whose header fits into the address space, breaks it. -/
theorem myMalloc_safe {t : List (Taken MallocState MallocAction)} {s : MallocState}
    (hrun : mallocSystem.Run t s) :
    ((∀ x ∈ t, Fits x.before x.action) →
      (∀ x ∈ t, Promise x.before x.after) ∧
      ∀ size grants, Fits s (.malloc size grants) →
        ∃ s', MallocStep s (.malloc size grants) s') ∧
    ∀ x ∈ t, ¬ Fits x.before x.action → x.before.arena.brk + blockSize < space →
      ¬ Promise x.before x.after := by
  constructor
  · intro hfits
    have hinv := mallocInv_reachable (hrun.reachable_restrict hfits)
    refine ⟨?_, fun size grants => hinv.returns⟩
    clear hinv
    induction hrun with
    | init => exact fun x hx => absurd hx List.not_mem_nil
    | step hrun hstep ih =>
      rw [List.forall_mem_cons] at hfits ⊢
      have hbefore := mallocInv_reachable (hrun.reachable_restrict hfits.2)
      exact ⟨(hbefore.step hfits.1 hstep).2, ih hfits.2⟩
  · intro x hx hfits hbrk
    refine not_promise_of_not_fits (hrun.step_of_mem hx) hfits hbrk

/-- The break at 4096. -/
def mallocZero : MallocState := ⟨⟨fun _ => 0, 0, 4096⟩, []⟩

theorem mallocStart_mallocZero : MallocStart mallocZero := ⟨rfl, by decide, by decide, rfl⟩

/-- The header and the bytes of the second block are behind those of the first. -/
theorem mallocZero_calls : ((myMalloc mallocZero.arena 4 true 0).bind fun r =>
    (myMalloc r.2 8 true 1).map fun r' => (r.1, r'.1)) = some (4120, 4148) := by
  decide +kernel

theorem myMalloc_safe_four : ∃ s s', MallocStep mallocZero (.malloc 4 true) s ∧
    MallocStep s (.malloc 8 true) s' ∧ s'.returned = [(4120, 4), (4148, 8)] ∧
    Promise mallocZero s ∧ Promise s s' := by
  obtain ⟨⟨p, h⟩, hfirst, hrest⟩ := Option.bind_eq_some_iff.mp mallocZero_calls
  obtain ⟨⟨p', h'⟩, hsecond, hends⟩ := Option.map_eq_some_iff.mp hrest
  obtain ⟨rfl, rfl⟩ := Prod.mk.inj hends
  have hstep : MallocStep mallocZero (.malloc 4 true) ⟨h, [(4120, 4)]⟩ := .malloc hfirst
  have hstep' : MallocStep ⟨h, [(4120, 4)]⟩ (.malloc 8 true) ⟨h', [(4120, 4), (4148, 8)]⟩ := by
    simpa using MallocStep.malloc (s := ⟨h, [(4120, 4)]⟩) hsecond
  have hrun := ((TransitionSystem.Run.init mallocStart_mallocZero).step hstep).step
    (T := mallocSystem) hstep'
  obtain ⟨hpromise, -⟩ := (myMalloc_safe hrun).1 (List.forall_mem_cons.mpr
    ⟨fun _ _ => by decide, List.forall_mem_singleton.mpr fun _ _ => by decide⟩)
  obtain ⟨hlast, hpromise⟩ := List.forall_mem_cons.mp hpromise
  exact ⟨_, _, hstep, hstep', rfl, hpromise _ (List.mem_singleton_self _), hlast⟩

/-- With 24 bytes less than the address space has, `sbrk` is asked for nothing. -/
theorem not_promise_wrapped :
    ¬ ∀ t s, mallocSystem.Run t s → ∀ x ∈ t, Promise x.before x.after := by
  intro h
  have hcall : ∃ r, myMalloc mallocZero.arena 18446744073709551592 true 0 = some r := ⟨_, rfl⟩
  obtain ⟨r, hr⟩ := hcall
  have hstep := MallocStep.malloc (s := mallocZero) hr
  have hzero : mallocSystem.Run [] mallocZero := .init mallocStart_mallocZero
  have hrun : mallocSystem.Run [⟨mallocZero, _, _⟩] _ := .step hzero hstep
  have hpromise := h _ _ hrun _ (List.mem_cons_self ..)
  refine not_promise_of_not_fits hstep ?_ (by decide) hpromise
  intro hfits
  exact absurd (hfits (by decide) (by decide)) (by decide)

end MyMalloc

end SystemsProjects
