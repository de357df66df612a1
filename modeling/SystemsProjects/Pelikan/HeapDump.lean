import SystemsProjects.Pelikan.Accounting

/-!
# The listing of the heap (`heap_dump`)

- `heapDump`: the texts that `heap_dump` prints, a line with three numbers for each block.
- `readDump`: the numbers in such a text, line by line.
- `heap_dump_accounts`: in every run of the tasks the lines read back are the blocks of the heap.
  With the number of `mem` and the lines of `ps` they add up to the whole memory, and the blocks in
  use are those of the tasks that `ps` lists.

The text is printed by a loop along the list, one line for each block, and a numeral never
contains a separator, so the text can be taken apart again (`readDump`). Over runs, the list
that is printed is the one of the invariant of `Reaping`, whose blocks in use are those of the
tasks.
-/

namespace SystemsProjects

namespace Pelikan

open TransitionSystem

/-- What `itoa` makes of a word. -/
def itoaText (n : Nat) : List (BitVec 8) := ascii (itoa (BitVec.ofNat 32 n)).toList

/-- What an iteration of `heap_dump` prints. -/
def dumpLine (h : Heap) (current : Nat) : List (List (BitVec 8)) :=
  [itoaText current, ascii [' ', ' '], itoaText (h.get current .size), ascii [' ', ' '],
    itoaText (h.get current .free), ascii [' ', ' '], ascii ['\n']]

/-- The loop of `heap_dump`. -/
def heapDumpFrom (h : Heap) : Nat → Nat → List (List (BitVec 8)) →
    Fueled Empty (List (List (BitVec 8)))
  | 0, _, _ => .out
  | n + 1, current, printed =>
    if current ≠ 0 then heapDumpFrom h n (h.get current .next) (printed ++ dumpLine h current)
    else .done printed

/-- `heap_dump`, and what it prints. -/
def heapDump (h : Heap) (n : Nat) : Fueled Empty (List (List (BitVec 8))) :=
  if h.head = 0 then .done [ascii ['N', 'O', ' ', 'L', 'I', 'S', 'T', '?', '?']]
  else heapDumpFrom h n h.head []

/-- The pieces of a text between separators, those that are not empty. -/
def pieces (sep : BitVec 8) (text : List (BitVec 8)) : List (List (BitVec 8)) :=
  (text.splitOn sep).filter (· ≠ [])

/-- The numbers of each line. -/
def readDump (text : List (BitVec 8)) : List (List Nat) :=
  (pieces 0x0A text).map fun line => (pieces 0x20 line).map readDecimal

/-- The three numbers of a block. -/
def Block.numbers (b : Block) : List Nat := [b.addr, b.size, b.flag]

/-! ## Reading a line -/

section

variable {sep : BitVec 8} {a b : List (BitVec 8)} {n : Nat}

theorem pieces_cons (ha : sep ∉ a) : pieces sep (a ++ sep :: b) =
    (if a = [] then [] else [a]) ++ pieces sep b := by
  rw [pieces, pieces, List.splitOn_append_cons_self_of_not_mem ha, List.filter_cons]
  by_cases hnil : a = []
  · simp [hnil]
  · simp [hnil]

/-- What `itoa` prints of a 32-bit number is its decimal text. -/
theorem itoaText_eq (hn : n < 4294967296) : itoaText n = decimalText n := by
  rw [itoaText, ascii_itoa, BitVec.toNat_ofNat, Nat.mod_eq_of_lt hn]

/-- Numerals have neither blanks nor line feeds, and are not empty. -/
theorem notMem_decimalText {c : BitVec 8} (hc : c.toNat < 0x30) : c ∉ decimalText n := fun hmem =>
  absurd ((isDecimal_decimalText n).digits c hmem).1 (by omega)

theorem decimalText_ne_nil (n : Nat) : decimalText n ≠ [] := by
  rcases (isDecimal_decimalText n).leading with h | ⟨c, rest, h, -⟩
  · simp [h]
  · simp [h]

/-- A numeral and two blanks. -/
theorem pieces_numeral (n : Nat) (b : List (BitVec 8)) :
    pieces 0x20 (decimalText n ++ 0x20 :: 0x20 :: b) = decimalText n :: pieces 0x20 b := by
  have hblank := @pieces_cons 0x20 [] b List.not_mem_nil
  rw [pieces_cons (notMem_decimalText (by decide)), if_neg (decimalText_ne_nil n)]
  simpa using hblank

/-- A line, without its line feed. -/
def Block.line (b : Block) : List (BitVec 8) :=
  decimalText b.addr ++ 0x20 :: 0x20 :: (decimalText b.size ++ 0x20 :: 0x20 ::
    (decimalText b.flag ++ [0x20, 0x20]))

/-- The numbers of a line are those of its block. -/
theorem Block.read_line (b : Block) : (pieces 0x20 b.line).map readDecimal = b.numbers := by
  have hread := fun n => (isDecimal_decimalText n).value
  rw [Block.line, pieces_numeral, pieces_numeral, pieces_numeral]
  simp [Block.numbers, hread, pieces]

theorem Block.pieces_line (b : Block) (rest : List (BitVec 8)) :
    pieces 0x0A (b.line ++ 0x0A :: rest) = b.line :: pieces 0x0A rest := by
  have hfeed : (0x0A : BitVec 8) ∉ b.line := by
    have hnone : ∀ n, 10#8 ∉ decimalText n := fun n => notMem_decimalText (by decide)
    simp [Block.line, hnone]
  have hne : b.line ≠ [] := by simp [Block.line]
  rw [pieces_cons hfeed, if_neg hne]
  rfl

/-- The lines of the blocks, read back. -/
theorem readDump_lines (l : List Block) :
    readDump (l.flatMap fun b => b.line ++ [0x0A]) = l.map Block.numbers := by
  induction l with
  | nil => rfl
  | cons b l ih =>
    rw [readDump] at ih
    rw [readDump, List.flatMap_cons, List.append_assoc, List.singleton_append, b.pieces_line,
      List.map_cons, List.map_cons, ih, b.read_line]

end

/-! ## The listing -/

section

variable {h : Heap} {l : List Block} {frames : Finset Nat} {b : Block} {next : Nat}

/-- The line that is printed is the one that is written down for the block. -/
theorem Header.dumpLine (hb : Header h b next) (haddr : b.addr < 4294967296)
    (hsize : b.size < 4294967296) :
    (Pelikan.dumpLine h b.addr).flatten = b.line ++ [0x0A] := by
  have hflag : b.flag < 4294967296 := by
    unfold Block.flag
    split <;> decide
  rw [Pelikan.dumpLine, hb.size, hb.free, itoaText_eq haddr, itoaText_eq hsize, itoaText_eq hflag]
  simp [Block.line, ascii]

/-- The loop follows the links to the end. -/
theorem heapDumpFrom_linked (hl : Linked h l 0) (hne : ∀ b ∈ l, b.addr ≠ 0)
    (printed : List (List (BitVec 8))) :
    heapDumpFrom h (l.length + 1) (first l 0) printed =
      .done (printed ++ l.flatMap fun b => dumpLine h b.addr) := by
  induction l generalizing printed with
  | nil => simp [heapDumpFrom, first]
  | cons b l ih =>
    rw [List.forall_mem_cons] at hne
    rw [List.length_cons, heapDumpFrom, first, if_pos hne.1, hl.1.next, ih hl.2 hne.2]
    simp

/-- The blocks fill the frames of the heap. -/
theorem Shape.sum_bytes (hs : Shape h l frames) :
    (l.map fun b => blockSize + b.size).sum = 4096 * frames.card := by
  have hstop : ∀ s ∈ l.map Block.span, s.stop ≤ 134217728 := by
    intro s hmem
    obtain ⟨b, hb, rfl⟩ := List.mem_map.mp hmem
    exact (hs.bounds hb).2
  have hlengths : (l.map Block.span).map (fun s => s.stop - s.start) =
      l.map fun b => blockSize + b.size := by
    rw [List.map_map]
    refine List.map_congr_left fun b _ => ?_
    show b.addr + blockSize + b.size - b.addr = _
    omega
  have hend : ∀ f ∈ frames, 4096 * f + 4096 ≤ 134217728 := by
    intro f hf
    have hlt := (hs.used f hf).2.1
    unfold maxFrames at hlt
    omega
  rw [← hlengths, hs.tiles.sum_frames (by decide) hstop hend]

/-- `heap_dump` returns, and its lines are the blocks. -/
theorem Shape.heapDump (hs : Shape h l frames) (hne : l ≠ []) :
    ∃ texts, Yields (Pelikan.heapDump h) texts ∧ readDump texts.flatten = l.map Block.numbers := by
  have haddr := fun b hb => hs.addr_ne_zero (c := b) hb
  have hhead : h.head ≠ 0 := by
    rw [hs.head_eq]
    cases l with
    | nil => exact absurd rfl hne
    | cons b l => exact haddr b (List.mem_cons_self ..)
  refine ⟨l.flatMap fun b => dumpLine h b.addr, ⟨l.length + 1, ?_⟩, ?_⟩
  · rw [Pelikan.heapDump, if_neg hhead, hs.head_eq, heapDumpFrom_linked hs.linked haddr]
    rfl
  · rw [← readDump_lines, List.flatMap_def, List.flatMap_def, List.flatten_flatten,
      List.map_map]
    congr 2
    refine List.map_congr_left fun b hb => ?_
    obtain ⟨next, hheader⟩ := hs.linked.exists_header hb
    have hbounds := hs.bounds hb
    unfold Block.stop at hbounds
    exact hheader.dumpLine (by omega) (by omega)

end

/-! ## Over runs -/

section

variable {x : Reaping}

/-- The three listings, at any moment of any run at which a task has the CPU: they return, the
lines of `heap_dump` read back are blocks, of which those in use are the tasks not reaped yet, and
the bytes of these lines, with a page for each frame that `mem` counts, two for each line of `ps`
and those in use at first, are the 128 MiB of the frame allocator. -/
theorem heap_dump_accounts (h : reapSystem.Reachable x)
    (hrunning : x.sys.control.phase = .running) :
    ∃ number lines texts l, Reports x number lines ∧ Yields (heapDump x.heap) texts ∧
      readDump texts.flatten = l.map Block.numbers ∧
      (∀ t, InUse l t ↔ t ∈ x.sys.control.unreaped) ∧ (l.map Block.addr).Nodup ∧
      4096 * (number + 2 * lines.length + x.usedFirst.ncard) +
        (l.map fun b => blockSize + b.size).sum = 134217728 := by
  obtain ⟨l, frames, hx⟩ := holding_of_reachable h
  obtain ⟨number, lines, hreports, hsum⟩ := reports_of_reachable h hrunning
  have hs := hx.stored.cells.shape
  have hne : l ≠ [] := by
    rintro rfl
    obtain ⟨b, hb, -⟩ := (hx.stored.inUse _).mpr (current_mem_unreaped hx.reach hrunning)
    exact absurd hb List.not_mem_nil
  obtain ⟨texts, hyields, hread⟩ := hs.heapDump hne
  refine ⟨number, lines, texts, l, hreports, hyields, hread, hx.stored.inUse, ?_, ?_⟩
  · refine (List.nodup_map_iff_inj_on hs.nodup).mpr fun b hb c hc haddr => ?_
    exact hs.eq_of_addr hb hc haddr
  · rw [hx.frames_eq, Set.ncard_coe_finset] at hsum
    rw [hs.sum_bytes]
    unfold maxFrames at hsum
    omega

end

theorem heap_dump_accounts_startRun : ∃ x, reapSystem.Reachable x ∧
    x.sys.control.unreaped = {1048660, 1048596} ∧
    ∃ number lines texts l, Reports x number lines ∧ Yields (heapDump x.heap) texts ∧
      readDump texts.flatten = l.map Block.numbers ∧
      (∀ t, InUse l t ↔ t ∈ x.sys.control.unreaped) ∧ (l.map Block.addr).Nodup ∧
      4096 * (number + 2 * lines.length + x.usedFirst.ncard) +
        (l.map fun b => blockSize + b.size).sum = 134217728 := by
  obtain ⟨x₀, hinit, hrest⟩ := Option.bind_eq_some_iff.mp startRun_endRun
  obtain ⟨x, hstart, hrest⟩ := Option.bind_eq_some_iff.mp hrest
  obtain ⟨x', -, hphases⟩ := Option.map_eq_some_iff.mp hrest
  obtain ⟨hrunning, hphases⟩ := Prod.mk.inj hphases
  have hreach : reapSystem.Reachable x :=
    (Reachable.init (bootReaping_initial hinit)).runActions
      (fun _ a _ hs => ⟨a, reapExec_step _ _ _ hs⟩) hstart
  exact ⟨x, hreach, (Prod.mk.inj (Prod.mk.inj hphases).2).1, heap_dump_accounts hreach hrunning⟩

end Pelikan

end SystemsProjects
