import Mathlib.Data.List.Nodup
import StackC.Proofs.Emission.Functions

namespace StackC

namespace Emission

open Assembly

def defines (l : Label) (ls : List Line) : Nat := ls.count (.label l)

@[simp] theorem defines_nil (l : Label) : defines l [] = 0 := rfl

@[simp] theorem defines_append (l : Label) (as bs : List Line) :
    defines l (as ++ bs) = defines l as + defines l bs := List.count_append

@[simp] theorem defines_instr (l : Label) (i : Instr) (ls : List Line) :
    defines l (.instr i :: ls) = defines l ls := by
  simp [defines]

@[simp] theorem defines_directive (l : Label) (d : Directive) (ls : List Line) :
    defines l (.directive d :: ls) = defines l ls := by
  simp [defines]

@[simp] theorem defines_label (l l' : Label) (ls : List Line) :
    defines l (.label l' :: ls) = defines l ls + if l' = l then 1 else 0 := by
  simp [defines, List.count_cons]

theorem defines_pos_of_mem {l : Label} {ls : List Line} (h : .label l ∈ ls) : 0 < defines l ls :=
  List.count_pos_iff.mpr h

@[simp] theorem defines_testLines (l t : Label) (cond : Cond) :
    defines l (testLines cond t) = 0 := by
  simp [testLines]

@[simp] theorem defines_memberLines (l : Label) (m : Member CType) :
    defines l (memberLines m) = 0 := by
  simp [memberLines]

@[simp] theorem defines_dropLines (l : Label) (k : Nat) : defines l (dropLines k) = 0 := by
  unfold dropLines
  split <;> simp

@[simp] theorem defines_callLines (l : Label) (name : String) (count d : Nat) :
    defines l (callLines name count d) = 0 := by
  unfold callLines
  split <;> simp

@[simp] theorem defines_popLines (l : Label) (rs : List Reg) : defines l (popLines rs) = 0 := by
  unfold popLines
  induction rs.reverse with
  | nil => rfl
  | cons r rs ih => simpa using ih

@[simp] theorem defines_operation (l : Label) (op : BinaryOp) :
    defines l (operation op).lines = 0 := by
  cases op <;> simp [operation, comparison]

@[simp] theorem defines_extendResult (l : Label) (t : CType) :
    defines l (extendResult t).lines = 0 := by
  unfold extendResult
  split
  · split <;> simp
  · simp

theorem defines_loads {t : CType} {ls : List Line} (h : Loads t ls) (l : Label) :
    defines l ls = 0 := by
  cases h <;> simp

theorem defines_spills {c : Context} {index : Nat} {ids : List VarId} {ls : List Line}
    (h : Spills c index ids ls) (l : Label) : defines l ls = 0 := by
  induction h with
  | nil => rfl
  | cons hv hw hr hk hs ih => simpa using ih

/-- Lines whose labels are numbered above `n` and up to `n'`, each of them defined once. -/
structure Fresh (n n' : Nat) (ls : List Line) : Prop where
  le : n ≤ n'
  once : ∀ r m, defines (.numbered r m) ls ≤ 1
  range : ∀ r m, 0 < defines (.numbered r m) ls → n < m ∧ m ≤ n'
  named : ∀ l, (∀ r m, l ≠ .numbered r m) → defines l ls = 0

namespace Fresh

/-- Lines without labels need no numbers. -/
theorem of_unlabelled {ls : List Line} (n : Nat) (h : ∀ l, defines l ls = 0) : Fresh n n ls where
  le := Nat.le_refl n
  once r m := by rw [h]; exact Nat.zero_le 1
  range r m hp := by rw [h] at hp; exact absurd hp (Nat.lt_irrefl 0)
  named l _ := h l

/-- Labels that are numbered in different ranges do not meet. -/
theorem append {n m n' : Nat} {as bs : List Line} (ha : Fresh n m as) (hb : Fresh m n' bs) :
    Fresh n n' (as ++ bs) where
  le := Nat.le_trans ha.le hb.le
  once r k := by
    have h₁ := ha.once r k
    have h₂ := hb.once r k
    have h₃ := ha.range r k
    have h₄ := hb.range r k
    rw [defines_append]
    omega
  range r k hp := by
    have h₁ := ha.range r k
    have h₂ := hb.range r k
    have h₃ := ha.le
    have h₄ := hb.le
    rw [defines_append] at hp
    omega
  named l hl := by rw [defines_append, ha.named l hl, hb.named l hl]

/-- Only the number of definitions counts, not the order of the lines. -/
theorem of_defines {n n' : Nat} {as bs : List Line} (h : Fresh n n' as)
    (he : ∀ l, defines l bs = defines l as) : Fresh n n' bs where
  le := h.le
  once r m := by rw [he]; exact h.once r m
  range r m hp := by rw [he] at hp; exact h.range r m hp
  named l hl := by rw [he]; exact h.named l hl

/-- The labels of one construct share a number and differ in their roles. -/
theorem own (n : Nat) (roles : List LabelRole) (h : roles.Nodup) :
    Fresh n (n + 1) (roles.map fun r => .label (.numbered r (n + 1))) := by
  have hcount (l : Label) : defines l (roles.map fun r => .label (.numbered r (n + 1))) =
      (roles.map fun r => Label.numbered r (n + 1)).count l := by
    induction roles with
    | nil => rfl
    | cons r rs ih =>
      rw [List.map_cons, List.map_cons, defines_label, ih (List.nodup_cons.mp h).2, List.count_cons]
      simp
  have hinj : (roles.map fun r => Label.numbered r (n + 1)).Nodup :=
    List.Nodup.map (fun a b hab => (Label.numbered.inj hab).1) h
  refine ⟨Nat.le_succ n, fun r m => ?_, fun r m hp => ?_, fun l hl => ?_⟩
  · rw [hcount]
    exact List.nodup_iff_count_le_one.mp hinj _
  · rw [hcount, List.count_pos_iff, List.mem_map] at hp
    obtain ⟨r', -, he⟩ := hp
    have hm : n + 1 = m := (Label.numbered.inj he).2
    omega
  · rw [hcount, List.count_eq_zero, List.mem_map]
    rintro ⟨r, -, he⟩
    exact hl r (n + 1) he.symm

end Fresh

/-- Emitted lines define each label that was given out at most once, and no other. -/
theorem emits_fresh {c : Context} {task : Task} {d n n' : Nat} {ls : List Line}
    (h : Emits c task d n ls n') : Fresh n n' ls := by
  induction h with
  | num => exact .of_unlabelled _ (by simp)
  | var hv ht hl => exact .of_unlabelled _ (by simp [defines_loads hl])
  | deref he ht hl ih => exact ih.of_defines (by simp [defines_loads hl])
  | member hb ht hl ih => exact ih.of_defines (by simp [defines_loads hl])
  | addr he ih => exact ih
  | assign hl hr ht hw ihl ihr => exact (ihl.append ihr).of_defines (by simp)
  | @logical c i op l r a b d n n₁ n₂ hop hl hr ihl ihr =>
    refine ((Fresh.own n [.short, .finish] (by decide)).append
      (ihl.append ihr)).of_defines fun l => ?_
    simp only [logicalLines, defines_append, defines_testLines, defines_instr, defines_label,
      defines_nil, List.map_cons, List.map_nil]
    omega
  | binary hop hl hr ihl ihr => exact (ihl.append ihr).of_defines (by simp)
  | not he ih => exact ih.of_defines (by simp)
  | @ternary c i e x y a b b' d n n₁ n₂ n₃ he hx hy ihe ihx ihy =>
    refine ((Fresh.own n [.other, .finish] (by decide)).append
      (ihe.append (ihx.append ihy))).of_defines fun l => ?_
    simp only [defines_append, defines_testLines, defines_instr, defines_label, defines_nil,
      List.map_cons, List.map_nil]
    omega
  | call ht hn ha ih => exact ih.of_defines (by simp)
  | stmtExpr h ih => exact ih
  | varAddress hv => exact .of_unlabelled _ (by simp)
  | derefAddress he ih => exact ih
  | memberAddress hb ih => exact ih.of_defines (by simp)
  | noArguments => exact .of_unlabelled _ (by simp)
  | argument he hs ihe ihs => exact ihe.append ihs
  | lastItem he ih => exact ih
  | item hx hs ihx ihs => exact ihx.append ihs
  | exprStmt he ih => exact ih.of_defines (by simp)
  | retVoid => exact .of_unlabelled _ (by simp)
  | ret he ih => exact ih.of_defines (by simp)
  | block h ih => exact ih
  | @ifElse c i e x y a b b' d n n₁ n₂ n₃ he hx hy ihe ihx ihy =>
    refine ((Fresh.own n [.other, .finish] (by decide)).append
      (ihe.append (ihx.append ihy))).of_defines fun l => ?_
    simp only [defines_append, defines_testLines, defines_instr, defines_label, defines_nil,
      List.map_cons, List.map_nil]
    omega
  | @whileLoop c i e x a b d n n₁ n₂ he hx ihe ihx =>
    refine ((Fresh.own n [.start, .again, .finish] (by decide)).append
      (ihe.append ihx)).of_defines fun l => ?_
    simp only [defines_append, defines_testLines, defines_instr, defines_label, defines_nil,
      List.map_cons, List.map_nil]
    omega
  | @forLoop c i init e update x f a b u d n n₁ n₂ n₃ n₄ hf he hx hu ihf ihe ihx ihu =>
    refine ((Fresh.own n [.start, .again, .finish] (by decide)).append
      (ihf.append (ihe.append (ihx.append ihu)))).of_defines fun l => ?_
    simp only [defines_append, defines_testLines, defines_instr, defines_label, defines_nil,
      List.map_cons, List.map_nil]
    omega
  | breakLoop hc hd => exact .of_unlabelled _ (by simp)
  | continueLoop hc hd => exact .of_unlabelled _ (by simp)
  | empty => exact .of_unlabelled _ (by simp)
  | noStatements => exact .of_unlabelled _ (by simp)
  | statement hx hs ihx ihs => exact ihx.append ihs
  | absent => exact .of_unlabelled _ (by simp)
  | present hx ih => exact ih

/-- A label that is defined once has one index. -/
theorem index_unique {l : Label} {ls : List Line} (h : defines l ls ≤ 1) {i j : Nat}
    (hi : ls[i]? = some (.label l)) (hj : ls[j]? = some (.label l)) : i = j := by
  induction ls generalizing i j with
  | nil => exact nomatch hi
  | cons x ls ih =>
    have hle : defines l ls ≤ defines l (x :: ls) := List.count_le_count_cons
    -- A second definition further on would be counted as well.
    have hlast (m : Nat) (hx : x = .label l) (hm : ls[m]? = some (.label l)) : False := by
      have hp := defines_pos_of_mem (List.mem_of_getElem? hm)
      subst hx
      rw [defines_label, if_pos rfl] at h
      omega
    cases i with
    | zero =>
      cases j with
      | zero => rfl
      | succ j => exact (hlast j (Option.some.inj hi) hj).elim
    | succ i =>
      cases j with
      | zero => exact (hlast i (Option.some.inj hj) hi).elim
      | succ j => exact congrArg (· + 1) (ih (Nat.le_trans hle h) hi hj)

/-- So do the lines of a body. -/
theorem emitsBody_fresh {p : Program} {f : Function} {body : Node} {n n' : Nat} {ls : List Line}
    (h : EmitsBody p f body n ls n') : Fresh n n' ls := by
  obtain ⟨hs, hb⟩ := h
  exact (emits_fresh hb).of_defines fun l => by simp [defines_spills hs]

/-- A block defines each of its labels once. -/
theorem Fresh.defines_le_one {n n' : Nat} {ls : List Line} (h : Fresh n n' ls) (l : Label) :
    defines l ls ≤ 1 := by
  cases l with
  | numbered r m => exact h.once r m
  | functionEnd name => rw [h.named _ (by simp)]; exact Nat.zero_le 1
  | symbol name => rw [h.named _ (by simp)]; exact Nat.zero_le 1

/-- The names of functions distinguish the labels at their beginnings and at their ends. -/
theorem emitsAll_defines_named {p : Program} {fs : List Function} {n n' : Nat} {ls : List Line}
    (h : EmitsAll p fs n ls n') {l : Label} {name : String}
    (hl : l = .functionEnd name ∨ l = .symbol name) :
    defines l ls ≤ (fs.map (·.name)).count name := by
  induction h with
  | nil => exact Nat.le_refl 0
  | announced hf hs ih => exact Nat.le_trans ih List.count_le_count_cons
  | @defined f fs body b ls n n₁ n₂ hf hb hs ih =>
    have hbody : defines l b = 0 :=
      (emitsBody_fresh hb).named l (by rcases hl with rfl | rfl <;> simp)
    rw [List.map_cons, List.count_cons]
    rcases hl with rfl | rfl <;>
    · simp only [headLines, tailLines, defines_append, defines_directive, defines_label,
        defines_instr, defines_nil, hbody, Label.functionEnd.injEq, Label.symbol.injEq,
        reduceCtorEq, if_false,
        beq_iff_eq]
      omega

/-- Labels are numbered through all functions. -/
theorem emitsAll_numbered {p : Program} {fs : List Function} {n n' : Nat} {ls : List Line}
    (h : EmitsAll p fs n ls n') : n ≤ n' ∧ ∀ r m, defines (.numbered r m) ls ≤ 1 ∧
      (0 < defines (.numbered r m) ls → n < m ∧ m ≤ n') := by
  induction h with
  | nil => exact ⟨Nat.le_refl _, fun r m => ⟨Nat.zero_le 1, nofun⟩⟩
  | announced hf hs ih => exact ih
  | @defined f fs body b ls n n₁ n₂ hf hb hs ih =>
    have hfresh := emitsBody_fresh hb
    obtain ⟨hle, hrest⟩ := ih
    refine ⟨Nat.le_trans hfresh.le hle, fun r m => ?_⟩
    have h₁ := hfresh.once r m
    have h₂ := hfresh.range r m
    have h₃ := hrest r m
    have h₄ := hfresh.le
    simp only [headLines, tailLines, defines_append, defines_directive, defines_label,
      defines_instr, defines_nil, reduceCtorEq, if_false]
    omega

/-- Data define names only. -/
theorem defines_dataSection (p : Program) {l : Label} (hl : ∀ name, l ≠ .symbol name) :
    defines l (dataSection p) = 0 := by
  apply List.count_eq_zero.mpr
  intro hm
  rcases mem_dataSection hm with h | ⟨v, -, h | h⟩ | ⟨b, h⟩ | ⟨n, h⟩
  case inr.inl.inr => exact hl v.name (Line.label.inj h)
  all_goals cases h

/-- In an output every label but the names of functions and data is defined once at most. -/
theorem defines_emit_le_one {p : Program} (hn : (p.functions.map (·.name)).Nodup)
    {lines : List Line} (h : p.emit = .ok lines) {l : Label} (hl : ∀ name, l ≠ .symbol name) :
    defines l lines ≤ 1 := by
  obtain ⟨ls, n, hs, rfl⟩ := emit_eq_ok.mp h
  rw [defines_append, defines_append, defines_dataSection p hl, defines_directive, defines_nil,
    Nat.zero_add, Nat.add_zero]
  cases l with
  | numbered r m => exact ((emitsAll_numbered hs).2 r m).1
  | functionEnd name =>
    exact Nat.le_trans (emitsAll_defines_named hs (Or.inl rfl))
      (List.nodup_iff_count_le_one.mp hn name)
  | symbol name => exact absurd rfl (hl name)

end Emission

end StackC
