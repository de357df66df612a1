import SystemsProjects.Bytecode.Variables

/-!
# Where the code of a program lies

- `Expr.size`, `Stmt.size`: the number of bytes of the code of a tree. They depend on the
  tree and on the table in front of it only.
- `Placed t n ss t' n' s`: the statement `s` occurs in `ss`, at any depth. The code of `ss`
  starts at `n` with the table `t`, that of `s` at `n'` with `t'`.
- `generateByte_isOk`: code generation goes through exactly when the code fits the array and
  the variables fit the table.

`Placed` is what other modules use to speak about one statement deep inside of a program: it
says at which address its code begins and what the table is there, and `Placed.slice` finds that
code in the array. Whether `walk` goes through at all is decided by two sums, the bytes and the
names, and neither depends on what the bytes are.
-/

namespace SystemsProjects

namespace Bytecode

/-! ## Sizes -/

/-- The bytes of an expression. A name that the table does not hold has no operand. -/
def Expr.size (t : VarTable) : Expr → Nat
  | .num _ => 2
  | .ident x => if (t.lookup x).isSome then 2 else 1
  | .bin _ l r => l.size t + r.size t + 1

mutual

/-- The bytes of a statement in front of which the table is `t`. -/
def Stmt.size (t : VarTable) : Stmt → Nat
  | .assign _ e => e.size t + 2
  | .print e => e.size t + 1
  | .ifStmt c b => c.size t + 2 + Stmt.sizeList t b
  | .whileStmt c b => c.size t + 2 + Stmt.sizeList t b + 2

/-- The bytes of statements one after the other. -/
def Stmt.sizeList (t : VarTable) : List Stmt → Nat
  | [] => 0
  | s :: ss => s.size t + Stmt.sizeList (t.declareAll s.assigned) ss

end

/-- The code of an expression has the length its tree says. -/
theorem exprCode_length (t : VarTable) (e : Expr) : (exprCode t e).length = e.size t := by
  induction e with
  | num v => rfl
  | ident x =>
    unfold exprCode Expr.size
    cases t.lookup x <;> rfl
  | bin op l r ihl ihr =>
    simp only [exprCode, Expr.size, List.length_append, List.length_singleton, ihl, ihr]
    omega

theorem ifCode_length (n : Nat) (cond body : List Byte) :
    (ifCode n cond body).length = cond.length + 2 + body.length := by
  simp only [ifCode, List.length_append, List.length_cons]
  omega

theorem whileCode_length (n : Nat) (cond body : List Byte) :
    (whileCode n cond body).length = cond.length + 2 + body.length + 2 := by
  simp only [whileCode, List.length_append, List.length_cons, List.length_nil]
  omega

mutual

theorem stmtCode_length : ∀ (s : Stmt) (t : VarTable) (n : Nat),
    (stmtCode t n s).length = s.size t
  | .assign x e, t, n => by
    simp only [stmtCode, Stmt.size, List.length_append, List.length_cons, List.length_nil,
      exprCode_length]
  | .print e, t, n => by
    simp only [stmtCode, Stmt.size, List.length_append, List.length_singleton, exprCode_length]
  | .ifStmt c b, t, n => by
    rw [stmtCode, ifCode_length, stmtsCode_length b, exprCode_length, Stmt.size]
  | .whileStmt c b, t, n => by
    rw [stmtCode, whileCode_length, stmtsCode_length b, exprCode_length, Stmt.size]

theorem stmtsCode_length : ∀ (ss : List Stmt) (t : VarTable) (n : Nat),
    (stmtsCode t n ss).length = Stmt.sizeList t ss
  | [], t, n => rfl
  | s :: ss, t, n => by
    rw [stmtsCode, List.length_append, stmtCode_length s, stmtsCode_length ss, Stmt.sizeList]

end

/-! ## Places -/

/-- Where the statements of a program stand, and with which table. -/
inductive Placed : VarTable → Nat → List Stmt → VarTable → Nat → Stmt → Prop where
  | head {t : VarTable} {n : Nat} {s : Stmt} {ss : List Stmt} : Placed t n (s :: ss) t n s
  | tail {t t' : VarTable} {n n' : Nat} {s s' : Stmt} {ss : List Stmt}
    (h : Placed (t.declareAll s.assigned) (n + s.size t) ss t' n' s') :
    Placed t n (s :: ss) t' n' s'
  | ifBody {t t' : VarTable} {n n' : Nat} {c : Expr} {b ss : List Stmt} {s' : Stmt}
    (h : Placed t (n + c.size t + 2) b t' n' s') : Placed t n (.ifStmt c b :: ss) t' n' s'
  | whileBody {t t' : VarTable} {n n' : Nat} {c : Expr} {b ss : List Stmt} {s' : Stmt}
    (h : Placed t (n + c.size t + 2) b t' n' s') : Placed t n (.whileStmt c b :: ss) t' n' s'

/-- `bs` stands at `n` in the code `cs` that starts at `start`. -/
def Slice (start : Nat) (cs : List Byte) (n : Nat) (bs : List Byte) : Prop :=
  ∃ pre post, cs = pre ++ (bs ++ post) ∧ n = start + pre.length

section Slices

variable {start n : Nat} {bs cs : List Byte}

theorem Slice.refl (n : Nat) (bs : List Byte) : Slice n bs n bs := ⟨[], [], by simp, rfl⟩

/-- A slice stays where it is when code is appended. -/
theorem Slice.append_right (h : Slice start cs n bs) (ds : List Byte) :
    Slice start (cs ++ ds) n bs := by
  obtain ⟨pre, post, rfl, hn⟩ := h
  refine ⟨pre, post ++ ds, ?_, hn⟩
  simp only [List.append_assoc]

theorem Slice.append_left {ds : List Byte} (h : Slice (start + ds.length) cs n bs) :
    Slice start (ds ++ cs) n bs := by
  obtain ⟨pre, post, rfl, rfl⟩ := h
  refine ⟨ds ++ pre, post, (List.append_assoc ..).symm, ?_⟩
  rw [List.length_append, Nat.add_assoc]

/-- The bytes of a slice, in the array that the code was stored in. -/
theorem Slice.overwrite_eq {mem : Nat → Byte} (h : Slice start cs n bs) {i : Nat} {b : Byte}
    (hi : bs[i]? = some b) : overwrite mem start cs (n + i) = b := by
  obtain ⟨pre, post, rfl, rfl⟩ := h
  have hlt : i < bs.length := (List.getElem?_eq_some_iff.mp hi).1
  rw [Nat.add_assoc, overwrite_add, List.getElem?_append_right (Nat.le_add_right ..),
    Nat.add_sub_cancel_left, List.getElem?_append_left hlt, hi]
  rfl

/-- A part of a part. -/
theorem Slice.trans {m : Nat} {ds : List Byte} (h : Slice start cs n bs) (h' : Slice n bs m ds) :
    Slice start cs m ds := by
  obtain ⟨pre, post, rfl, rfl⟩ := h
  obtain ⟨pre', post', rfl, rfl⟩ := h'
  refine ⟨pre ++ pre', post' ++ post, ?_, ?_⟩
  · simp only [List.append_assoc]
  · rw [List.length_append, Nat.add_assoc]

/-- A slice ends inside the code it is cut from. -/
theorem Slice.le_length (h : Slice start cs n bs) : n + bs.length ≤ start + cs.length := by
  obtain ⟨pre, post, rfl, rfl⟩ := h
  simp only [List.length_append]
  omega

end Slices

/-- The code of a placed statement stands at its place. -/
theorem Placed.slice {t t' : VarTable} {n n' : Nat} {ss : List Stmt} {s : Stmt}
    (h : Placed t n ss t' n' s) : Slice n (stmtsCode t n ss) n' (stmtCode t' n' s) := by
  induction h with
  | head => exact (Slice.refl _ _).append_right _
  | @tail t t' n n' s s' ss h ih =>
    rw [stmtsCode, stmtCode_length]
    refine Slice.append_left ?_
    rw [stmtCode_length]
    exact ih
  | @ifBody t t' n n' c b ss s' h ih =>
    rw [stmtsCode, stmtCode, ifCode, exprCode_length]
    refine Slice.append_right (Slice.append_left ?_) _
    rw [exprCode_length]
    -- in front of the block stand the instruction and its operand
    show Slice _ ([_, _] ++ _) _ _
    exact Slice.append_left ih
  | @whileBody t t' n n' c b ss s' h ih =>
    rw [stmtsCode, stmtCode, whileCode, exprCode_length]
    refine Slice.append_right (Slice.append_left ?_) _
    rw [exprCode_length]
    show Slice _ ([_, _] ++ _) _ _
    exact Slice.append_left (ih.append_right _)

/-! ## When code generation goes through -/

theorem GenState.write_isOk {g : GenState} {i : Nat} (h : i < byteArraySize) (b : Byte) :
    ∃ g', g.write i b = .ok g' := ⟨_, if_pos h⟩

/-- A byte is emitted as long as the array has room. -/
theorem GenState.emit_isOk {g : GenState} (h : g.byteArrayCount < byteArraySize) (b : Byte) :
    g.emit b = .ok (g.put [b]) := by
  obtain ⟨g₁, hwrite⟩ := GenState.write_isOk h b
  have hemit : g.emit b = .ok { g₁ with byteArrayCount := g₁.byteArrayCount + 1 } := by
    unfold GenState.emit
    rw [hwrite]
    rfl
  rw [hemit, ← GenState.emit_eq_ok hemit]

/-- The table only grows. -/
theorem VarTable.count_le_declareAll (t : VarTable) (xs : List Name) :
    t.count ≤ (t.declareAll xs).count := by
  induction xs generalizing t with
  | nil => exact Nat.le_refl _
  | cons x xs ih =>
    refine Nat.le_trans ?_ (ih (t.declare x))
    unfold VarTable.declare
    cases t.lookup x with
    | some i => exact Nat.le_refl _
    | none => exact Nat.le_succ _

/-- The names of a list of statements, those of the first one in front. -/
theorem VarTable.declareAll_assignedList_cons (t : VarTable) (s : Stmt) (ss : List Stmt) :
    t.declareAll (Stmt.assignedList (s :: ss)) =
      (t.declareAll s.assigned).declareAll (Stmt.assignedList ss) := List.foldl_append ..

/-- The walk over an expression goes through when its code fits. -/
theorem walk_expr_isOk {e : Expr} : ∀ {n : Node} {g : GenState}, n.expr? = some e →
    g.byteArrayCount + e.size g.vars ≤ byteArraySize →
      walk n g = .ok (g.put (exprCode g.vars e)) := by
  induction e with
  | num v =>
    intro n g hn hfits
    obtain ⟨type, name, value, left, right, body, bodyCount⟩ := n
    cases Node.isExpr_of_expr? hn with
    | num htype hvalue =>
      dsimp only at htype hvalue
      subst htype hvalue
      have hfits : g.byteArrayCount + 2 ≤ byteArraySize := hfits
      show (g.emit OpCode.opPush.toByte >>= fun g => readField (some v) >>= fun v => g.emit _) = _
      rw [GenState.emit_isOk (by omega), ok_bind]
      show (g.put [OpCode.opPush.toByte]).emit _ = _
      rw [GenState.emit_isOk (by rw [GenState.put_byteArrayCount, List.length_singleton]; omega),
        GenState.put_put]
      rfl
  | ident x =>
    intro n g hn hfits
    cases Node.isExpr_of_expr? hn with
    | ident htype hname =>
      -- room for the opcode at least; the operand is there when the name has a slot
      have hload : g.byteArrayCount < byteArraySize := by
        have hpos : 0 < (Expr.ident x).size g.vars := by
          unfold Expr.size
          split <;> omega
        omega
      rw [walk_ident htype hname, GenState.emit_isOk hload, ok_bind, GenState.put_vars]
      unfold exprCode
      unfold Expr.size at hfits
      cases hslot : g.vars.lookup x with
      | none => rfl
      | some i =>
        rw [hslot] at hfits
        have hfits : g.byteArrayCount + 2 ≤ byteArraySize := hfits
        show (g.put [OpCode.opLoad.toByte]).emit (BitVec.ofNat 8 i) = _
        rw [GenState.emit_isOk (by rw [GenState.put_byteArrayCount, List.length_singleton]; omega),
          GenState.put_put]
        rfl
  | bin op e f ihe ihf =>
    intro n g hn hfits
    have hfits : g.byteArrayCount + (e.size g.vars + f.size g.vars + 1) ≤ byteArraySize := hfits
    cases Node.isExpr_of_expr? hn with
    | bin htype hleft hright hl hr =>
      -- the right operand starts where the code of the left one ends
      have hcount :
          (g.put (exprCode g.vars e)).byteArrayCount = g.byteArrayCount + e.size g.vars := by
        rw [GenState.put_byteArrayCount, exprCode_length]
      have hright' := ihf (g := g.put (exprCode g.vars e)) hr (by
        rw [hcount, GenState.put_vars]
        omega)
      have hemit : ((g.put (exprCode g.vars e)).put (exprCode g.vars f)).byteArrayCount <
          byteArraySize := by
        rw [GenState.put_byteArrayCount, hcount, exprCode_length]
        omega
      rw [walk_bin htype hleft hright, ihe hl (by omega), ok_bind, hright', ok_bind,
        GenState.put_vars, GenState.emit_isOk hemit, GenState.put_put, GenState.put_put, exprCode]

/-- The operand of an assignment is emitted when the array and the table have room for it. -/
theorem emitStoreSlot_isOk {g : GenState} {x : Name} (hroom : g.byteArrayCount < byteArraySize)
    (hcount : (g.vars.declare x).count ≤ 256) : ∃ g', emitStoreSlot g x = .ok g' := by
  unfold emitStoreSlot
  unfold VarTable.declare at hcount
  cases hslot : g.vars.lookup x with
  | some i => exact ⟨_, GenState.emit_isOk hroom _⟩
  | none =>
    rw [hslot] at hcount
    have hlt : g.vars.count < 256 := hcount
    dsimp only
    rw [if_pos hlt]
    refine ⟨_, bind_eq_ok.mpr ⟨_, GenState.emit_isOk ?_ _, rfl⟩⟩
    exact hroom

section Blocks

variable {l : Node} {ns : List Node} {count : Nat} {c : Expr} {b : List Stmt} {g : GenState}

/-- The part `if` and `while` share: the states behind the condition, the instruction, its
placeholder and the block. -/
theorem walk_block_isOk (hl : l.expr? = some c) (hb : Node.stmtsUpTo? ns count = some b)
    (hfits : g.byteArrayCount + (c.size g.vars + 2 + Stmt.sizeList g.vars b) ≤ byteArraySize)
    (hbody : ∀ g₃ : GenState, g₃.vars = g.vars →
      g₃.byteArrayCount = g.byteArrayCount + c.size g.vars + 2 →
      ∃ g₄, walkUpTo ns count g₃ = .ok g₄) :
    ∃ g₁ g₂ g₃ g₄, walk l g = .ok g₁ ∧ g₁.emit OpCode.opJmpIfFalse.toByte = .ok g₂ ∧
      g₂.emit 0x00 = .ok g₃ ∧ walkUpTo ns count g₃ = .ok g₄ ∧
      g₂.byteArrayCount = g.byteArrayCount + c.size g.vars + 1 ∧
      g₄.byteArrayCount = g.byteArrayCount + (c.size g.vars + 2 + Stmt.sizeList g.vars b) := by
  -- the condition, the instruction and the placeholder, one after the other
  have hcond := walk_expr_isOk hl (g := g) (by omega)
  have hcount₁ : (g.put (exprCode g.vars c)).byteArrayCount = g.byteArrayCount + c.size g.vars := by
    rw [GenState.put_byteArrayCount, exprCode_length]
  have hemit₁ := GenState.emit_isOk (g := g.put (exprCode g.vars c)) (by omega)
    OpCode.opJmpIfFalse.toByte
  have hcount₂ : ((g.put (exprCode g.vars c)).put [OpCode.opJmpIfFalse.toByte]).byteArrayCount =
      g.byteArrayCount + c.size g.vars + 1 := by
    rw [GenState.put_byteArrayCount, hcount₁]
    rfl
  have hemit₂ := GenState.emit_isOk (b := 0x00)
    (g := (g.put (exprCode g.vars c)).put [OpCode.opJmpIfFalse.toByte]) (by omega)
  have hcount₃ : (((g.put (exprCode g.vars c)).put [OpCode.opJmpIfFalse.toByte]).put
      [0x00]).byteArrayCount = g.byteArrayCount + c.size g.vars + 2 := by
    rw [GenState.put_byteArrayCount, hcount₂]
    rfl
  obtain ⟨g₄, hwalk⟩ :=
    hbody (((g.put (exprCode g.vars c)).put [OpCode.opJmpIfFalse.toByte]).put [0x00]) rfl hcount₃
  refine ⟨_, _, _, g₄, hcond, hemit₁, hemit₂, hwalk, hcount₂, ?_⟩
  -- what the block appends is as long as its size says
  obtain rfl := walk_stmts b hb hwalk
  show _ + (stmtsCode _ _ b).length = _
  rw [hcount₃, stmtsCode_length]
  show _ + Stmt.sizeList g.vars b = _
  omega

end Blocks

mutual

/-- On a statement whose code fits and whose variables fit, `walk` goes through. -/
theorem walk_stmt_isOk : ∀ (s : Stmt) {n : Node} {g : GenState}, n.stmt? = some s →
    g.byteArrayCount + s.size g.vars ≤ byteArraySize →
    (g.vars.declareAll s.assigned).count ≤ 256 → ∃ g', walk n g = .ok g'
  | .assign x e, n, g, hn, hfits, hcount => by
    obtain ⟨r, htype, hname, hright, hr⟩ := Node.stmt?_eq_assign hn
    obtain ⟨type, name, value, left, right, body, bodyCount⟩ := n
    dsimp only at htype hname hright
    subst htype hright
    have hfits : g.byteArrayCount + (e.size g.vars + 2) ≤ byteArraySize := hfits
    have hlen := exprCode_length g.vars e
    have hexpr := walk_expr_isOk hr (g := g) (by omega)
    have hcount₁ :
        (g.put (exprCode g.vars e)).byteArrayCount = g.byteArrayCount + e.size g.vars := by
      rw [GenState.put_byteArrayCount, hlen]
    have hemit := GenState.emit_isOk (g := g.put (exprCode g.vars e)) (by omega)
      OpCode.opStore.toByte
    obtain ⟨g', hslot⟩ := emitStoreSlot_isOk (x := x)
      (g := (g.put (exprCode g.vars e)).put [OpCode.opStore.toByte])
      (by rw [GenState.put_byteArrayCount, hcount₁, List.length_singleton]; omega) hcount
    refine ⟨g', bind_eq_ok.mpr ⟨_, hexpr,
      bind_eq_ok.mpr ⟨_, hemit, bind_eq_ok.mpr ⟨x, ?_, hslot⟩⟩⟩⟩
    exact readName_of_ptrName? hname
  | .print e, n, g, hn, hfits, hcount => by
    obtain ⟨l, htype, hleft, hl⟩ := Node.stmt?_eq_print hn
    obtain ⟨type, name, value, left, right, body, bodyCount⟩ := n
    dsimp only at htype hleft
    subst htype hleft
    have hfits : g.byteArrayCount + (e.size g.vars + 1) ≤ byteArraySize := hfits
    have hexpr := walk_expr_isOk hl (g := g) (by omega)
    have hcount₁ :
        (g.put (exprCode g.vars e)).byteArrayCount = g.byteArrayCount + e.size g.vars := by
      rw [GenState.put_byteArrayCount, exprCode_length]
    exact ⟨_, bind_eq_ok.mpr ⟨_, hexpr, GenState.emit_isOk (by omega) _⟩⟩
  | .ifStmt c b, n, g, hn, hfits, hcount => by
    obtain ⟨l, ns, count, htype, hleft, hl, hbody, hcount', hb⟩ := Node.stmt?_eq_block false hn
    obtain ⟨type, name, value, left, right, body, bodyCount⟩ := n
    dsimp only at htype hleft hbody hcount'
    subst htype hleft hbody hcount'
    have hfits : g.byteArrayCount + (c.size g.vars + 2 + Stmt.sizeList g.vars b) ≤
        byteArraySize := hfits
    obtain ⟨g₁, g₂, g₃, g₄, h₁, h₂, h₃, h₄, hplace, -⟩ :=
      walk_block_isOk (g := g) hl hb (by omega) fun g₃ hvars hn₃ =>
        walk_stmts_isOk b hb (by rw [hvars]; omega) (by rw [hvars]; exact hcount)
    -- the operand of the jump over the block, which has been left open
    obtain ⟨g₅, h₅⟩ := GenState.write_isOk (g := g₄) (i := g₂.byteArrayCount) (by omega)
      (BitVec.ofNat 8 g₄.byteArrayCount)
    exact ⟨g₅, bind_eq_ok.mpr ⟨g₁, h₁, bind_eq_ok.mpr ⟨g₂, h₂, bind_eq_ok.mpr ⟨g₃, h₃,
      bind_eq_ok.mpr ⟨g₄, h₄, h₅⟩⟩⟩⟩⟩
  | .whileStmt c b, n, g, hn, hfits, hcount => by
    obtain ⟨l, ns, count, htype, hleft, hl, hbody, hcount', hb⟩ := Node.stmt?_eq_block true hn
    obtain ⟨type, name, value, left, right, body, bodyCount⟩ := n
    dsimp only at htype hleft hbody hcount'
    subst htype hleft hbody hcount'
    have hfits : g.byteArrayCount + (c.size g.vars + 2 + Stmt.sizeList g.vars b + 2) ≤
        byteArraySize := hfits
    obtain ⟨g₁, g₂, g₃, g₄, h₁, h₂, h₃, h₄, hplace, hn₄⟩ :=
      walk_block_isOk (g := g) hl hb (by omega) fun g₃ hvars hn₃ =>
        walk_stmts_isOk b hb (by rw [hvars]; omega) (by rw [hvars]; exact hcount)
    -- the jump back, and the operand of the jump out of the loop
    have h₅ := GenState.emit_isOk (g := g₄) (by omega) OpCode.opJmp.toByte
    have hn₅ : (g₄.put [OpCode.opJmp.toByte]).byteArrayCount = g₄.byteArrayCount + 1 := rfl
    have h₆ := GenState.emit_isOk (g := g₄.put [OpCode.opJmp.toByte]) (by omega)
      (BitVec.ofNat 8 g.byteArrayCount)
    obtain ⟨g₇, h₇⟩ := GenState.write_isOk
      (g := (g₄.put [OpCode.opJmp.toByte]).put [BitVec.ofNat 8 g.byteArrayCount])
      (i := g₂.byteArrayCount) (by omega) (BitVec.ofNat 8
        ((g₄.put [OpCode.opJmp.toByte]).put [BitVec.ofNat 8 g.byteArrayCount]).byteArrayCount)
    exact ⟨g₇, bind_eq_ok.mpr ⟨g₁, h₁, bind_eq_ok.mpr ⟨g₂, h₂, bind_eq_ok.mpr ⟨g₃, h₃,
      bind_eq_ok.mpr ⟨g₄, h₄, bind_eq_ok.mpr ⟨_, h₅, bind_eq_ok.mpr ⟨_, h₆, h₇⟩⟩⟩⟩⟩⟩⟩

/-- The walk over statements goes through when their code and their names fit. -/
theorem walk_stmts_isOk : ∀ (ss : List Stmt) {ns : List Node} {len : Nat} {g : GenState},
    Node.stmtsUpTo? ns len = some ss → g.byteArrayCount + Stmt.sizeList g.vars ss ≤ byteArraySize →
    (g.vars.declareAll (Stmt.assignedList ss)).count ≤ 256 → ∃ g', walkUpTo ns len g = .ok g'
  | [], ns, len, g, hns, hfits, hcount => by
    obtain rfl := Node.stmtsUpTo?_eq_nil hns
    exact ⟨g, walkUpTo_zero ns g⟩
  | s :: ss, ns, len, g, hns, hfits, hcount => by
    obtain ⟨n, ns, len, rfl, rfl, hs, hss⟩ := Node.stmtsUpTo?_eq_cons hns
    have hfits : g.byteArrayCount +
        (s.size g.vars + Stmt.sizeList (g.vars.declareAll s.assigned) ss) ≤ byteArraySize := hfits
    rw [VarTable.declareAll_assignedList_cons] at hcount
    have hmono := (g.vars.declareAll s.assigned).count_le_declareAll (Stmt.assignedList ss)
    obtain ⟨g₁, h₁⟩ := walk_stmt_isOk s hs (g := g) (by omega) (by omega)
    obtain rfl := walk_stmt s hs h₁
    obtain ⟨g₂, h₂⟩ := walk_stmts_isOk ss hss
      (g := g.putDeclare (stmtCode g.vars g.byteArrayCount s) s.assigned)
      (by
        show g.byteArrayCount + (stmtCode _ _ s).length + _ ≤ _
        rw [stmtCode_length]
        exact Nat.add_assoc .. ▸ hfits) hcount
    exact ⟨g₂, bind_eq_ok.mpr ⟨_, h₁, h₂⟩⟩

end

theorem GenState.emit_vars {g g' : GenState} {b : Byte} (h : g.emit b = .ok g') :
    g'.vars = g.vars := by
  rw [GenState.emit_eq_ok h, GenState.put_vars]

theorem GenState.write_vars {g g' : GenState} {i : Nat} {b : Byte} (h : g.write i b = .ok g') :
    g'.vars = g.vars := by
  rw [(GenState.write_eq_ok h).2]

/-- A name gets a slot only as long as the table has one. -/
theorem emitStoreSlot_count {g g' : GenState} {x : Name} (h : emitStoreSlot g x = .ok g')
    (hcount : g.vars.count ≤ 256) : g'.vars.count ≤ 256 := by
  unfold emitStoreSlot at h
  split at h
  · rw [GenState.emit_vars h]
    exact hcount
  · split at h
    · next hlt =>
      obtain ⟨g₁, h₁, h⟩ := bind_eq_ok.mp h
      obtain rfl := Except.ok.inj h
      have hvars := GenState.emit_vars h₁
      show g₁.vars.count + 1 ≤ 256
      rw [hvars]
      exact hlt
    · cases h

mutual

/-- `walk` never puts a name behind the end of the table. -/
theorem walk_count : ∀ {n : Node} {g g' : GenState}, walk n g = .ok g' →
    g.vars.count ≤ 256 → g'.vars.count ≤ 256
  | ⟨none, name, value, left, right, body, bodyCount⟩, g, g', h, hg => by cases h
  | ⟨some type, name, value, left, right, body, bodyCount⟩, g, g', h, hg => by
    have hbin : ∀ op : BinOp, (walkPtr left g >>= fun g => walkPtr right g >>= fun g =>
        g.emit op.opCode.toByte) = .ok g' → g'.vars.count ≤ 256 := by
      intro op h
      obtain ⟨g₁, h₁, h⟩ := bind_eq_ok.mp h
      obtain ⟨g₂, h₂, h⟩ := bind_eq_ok.mp h
      rw [GenState.emit_vars h]
      exact walkPtr_count h₂ (walkPtr_count h₁ hg)
    cases type with
    | nodeNum =>
      obtain ⟨g₁, h₁, h⟩ := bind_eq_ok.mp h
      obtain ⟨v, -, h⟩ := bind_eq_ok.mp h
      rw [GenState.emit_vars h, GenState.emit_vars h₁]
      exact hg
    | nodeIdent =>
      obtain ⟨g₁, h₁, h⟩ := bind_eq_ok.mp h
      obtain ⟨x, -, h⟩ := bind_eq_ok.mp h
      have hvars := GenState.emit_vars h₁
      split at h
      · rw [GenState.emit_vars h, hvars]
        exact hg
      · obtain rfl := Except.ok.inj h
        rw [hvars]
        exact hg
    | nodeAssign =>
      obtain ⟨g₁, h₁, h⟩ := bind_eq_ok.mp h
      obtain ⟨g₂, h₂, h⟩ := bind_eq_ok.mp h
      obtain ⟨x, -, h⟩ := bind_eq_ok.mp h
      -- the only place at which the table grows
      refine emitStoreSlot_count h ?_
      rw [GenState.emit_vars h₂]
      exact walkPtr_count h₁ hg
    | nodePrint =>
      obtain ⟨g₁, h₁, h⟩ := bind_eq_ok.mp h
      rw [GenState.emit_vars h]
      exact walkPtr_count h₁ hg
    | nodeIf =>
      obtain ⟨g₁, h₁, h⟩ := bind_eq_ok.mp h
      obtain ⟨g₂, h₂, h⟩ := bind_eq_ok.mp h
      obtain ⟨g₃, h₃, h⟩ := bind_eq_ok.mp h
      obtain ⟨g₄, h₄, h⟩ := bind_eq_ok.mp h
      rw [GenState.write_vars h]
      refine walkBody_count h₄ ?_
      rw [GenState.emit_vars h₃, GenState.emit_vars h₂]
      exact walkPtr_count h₁ hg
    | nodeWhile =>
      obtain ⟨g₁, h₁, h⟩ := bind_eq_ok.mp h
      obtain ⟨g₂, h₂, h⟩ := bind_eq_ok.mp h
      obtain ⟨g₃, h₃, h⟩ := bind_eq_ok.mp h
      obtain ⟨g₄, h₄, h⟩ := bind_eq_ok.mp h
      obtain ⟨g₅, h₅, h⟩ := bind_eq_ok.mp h
      obtain ⟨g₆, h₆, h⟩ := bind_eq_ok.mp h
      rw [GenState.write_vars h, GenState.emit_vars h₆, GenState.emit_vars h₅]
      refine walkBody_count h₄ ?_
      rw [GenState.emit_vars h₃, GenState.emit_vars h₂]
      exact walkPtr_count h₁ hg
    | nodeEq =>
      obtain rfl := Except.ok.inj h
      exact hg
    | nodeAdd => exact hbin (.add) h
    | nodeSub => exact hbin (.sub) h
    | nodeMul => exact hbin (.mul) h
    | nodeDiv => exact hbin (.div) h
    | nodeGt => exact hbin (.gt) h
    | nodeLt => exact hbin (.lt) h
    | nodeEqeq => exact hbin (.eqeq) h

theorem walkPtr_count : ∀ {p : Ptr Node} {g g' : GenState}, walkPtr p g = .ok g' →
    g.vars.count ≤ 256 → g'.vars.count ≤ 256
  | .ref n, g, g', h, hg => walk_count h hg
  | .null, g, g', h, hg => by
    obtain rfl := Except.ok.inj h
    exact hg
  | .unset, g, g', h, hg => by cases h

theorem walkBody_count : ∀ {body : Option (List Node)} {count : Option Nat} {g g' : GenState},
    walkBody body count g = .ok g' → g.vars.count ≤ 256 → g'.vars.count ≤ 256
  | some body, some count, g, g', h, hg => walkUpTo_count h hg
  | some _, none, g, g', h, hg => by cases h
  | none, some 0, g, g', h, hg => by
    obtain rfl := Except.ok.inj h
    exact hg
  | none, some (_ + 1), g, g', h, hg => by cases h
  | none, none, g, g', h, hg => by cases h

/-- Code generation that goes through has not overrun the table, whatever the nodes are. -/
theorem walkUpTo_count : ∀ {ns : List Node} {len : Nat} {g g' : GenState},
    walkUpTo ns len g = .ok g' → g.vars.count ≤ 256 → g'.vars.count ≤ 256
  | ns, 0, g, g', h, hg => by
    rw [walkUpTo_zero] at h
    obtain rfl := Except.ok.inj h
    exact hg
  | [], _ + 1, g, g', h, hg => by cases h
  | n :: ns, len + 1, g, g', h, hg => by
    obtain ⟨g₁, h₁, h⟩ := bind_eq_ok.mp h
    exact walkUpTo_count h (walk_count h₁ hg)

end

/-- Code generation goes through exactly when the code with its `OP_HALT` fits the array and
the variables fit the table. -/
theorem generateByte_isOk {mem : Nat → Byte} {vars : VarTable} {statements : List Node}
    {len : Nat} {prog : List Stmt} (hprog : program? statements len = some prog)
    (hvars : vars.count ≤ 256) :
    (∃ g, generateByte mem vars statements len = .ok g) ↔
      Stmt.sizeList vars prog + 1 ≤ byteArraySize ∧
        (vars.declareAll (Stmt.assignedList prog)).count ≤ 256 := by
  constructor
  · rintro ⟨g, h⟩
    -- the last byte that is written is `OP_HALT`
    obtain ⟨g₁, h₁, h⟩ := bind_eq_ok.mp h
    have hcount := walkUpTo_count h₁ hvars
    obtain rfl := walk_stmts prog hprog h₁
    obtain ⟨hlt, -⟩ := GenState.write_eq_ok h
    refine ⟨?_, hcount⟩
    have hlt : 0 + (stmtsCode vars 0 prog).length < byteArraySize := hlt
    rw [stmtsCode_length] at hlt
    omega
  · rintro ⟨hfits, hcount⟩
    obtain ⟨g₁, h₁⟩ := walk_stmts_isOk prog (g := ⟨mem, 0, vars⟩) hprog
      (by show 0 + Stmt.sizeList vars prog ≤ _; omega) hcount
    obtain rfl := walk_stmts prog hprog h₁
    have hlt : 0 + (stmtsCode vars 0 prog).length < byteArraySize := by
      rw [stmtsCode_length]
      omega
    obtain ⟨g, h⟩ := GenState.write_isOk (i := 0 + (stmtsCode vars 0 prog).length)
      (g := GenState.putDeclare ⟨mem, 0, vars⟩ (stmtsCode vars 0 prog) (Stmt.assignedList prog))
      hlt OpCode.opHalt.toByte
    exact ⟨g, bind_eq_ok.mpr ⟨_, h₁, h⟩⟩

/-- `generate_byte` on the nodes of a program with at most 256 bytes of code. -/
theorem generateByte_yields (mem : Nat → Byte) {statements : List Node} {len : Nat}
    {prog : List Stmt} (hprog : program? statements len = some prog)
    (hsize : Stmt.sizeList .empty prog + 1 ≤ 256) :
    ∃ g, generateByte mem .empty statements len = .ok g ∧
      g.byteArray = overwrite mem 0 (stmtsCode .empty 0 prog ++ [OpCode.opHalt.toByte]) := by
  have hassigned := Stmt.length_assignedList_le prog .empty 0
  have hdeclared := VarTable.empty.count_declareAll (Stmt.assignedList prog)
  have hempty : VarTable.empty.count = 0 := rfl
  rw [stmtsCode_length] at hassigned
  have hok : ∃ g, generateByte mem .empty statements len = .ok g :=
    (generateByte_isOk hprog (by rw [hempty]; omega)).mpr
      ⟨by unfold byteArraySize; omega, by omega⟩
  obtain ⟨g, hg⟩ := hok
  exact ⟨g, hg, (generateByte_eq hprog hg).2.1⟩

end Bytecode

end SystemsProjects
