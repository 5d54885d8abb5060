import Mathlib.Data.List.Nodup
import StackC.Proofs.Simulation.Control

namespace StackC

namespace Simulation

open Assembly Emission Machine Semantics

variable {σ ρ : Type} {K : Setting} {R : σ → Memory → Prop} {E : Handler σ} {stk : List Word}
  {c : Emission.Context} {o : Objects σ ρ} {addr : ρ → Word} {ls : List Line}

/-- Every value that is left has been pushed. -/
theorem emits_pushes {task : Task} {d n n' : Nat} (h : Emits c task d n ls n') :
    task.slots ≤ pushes ls := by
  induction h with
  | argument he hs ihe ihs =>
    simp only [Task.slots, List.length_cons, pushes_append] at ihe ihs ⊢
    omega
  | _ =>
    simp only [Task.slots, pushes_append, pushes_cons, logicalLines, isPush, if_true,
      List.length_nil] at *
    omega

/-- What the exits of a tree lead to: jumps out of a loop go to a label of the innermost loop and
drop the operands that have come since its start, returns go to the end of the function. -/
structure Exits (K : Setting) (R : σ → Memory → Prop) (c : Emission.Context) (stk : List Word)
    (E : Handler σ) : Prop where
  broke : E.takes .broke → ∀ t ts, c.loops = t :: ts → t.depth ≤ stk.length ∧
    ∃ j, Marks K.prog t.finish j ∧
      ∀ s st, At K R j s (stk.drop (stk.length - t.depth)) st → E.post .broke s st
  continued : E.takes .continued → ∀ t ts, c.loops = t :: ts → t.depth ≤ stk.length ∧
    ∃ j, Marks K.prog t.again j ∧
      ∀ s st, At K R j s (stk.drop (stk.length - t.depth)) st → E.post .continued s st
  returned : ∀ v, E.takes (.returned v) → ∃ j, Marks K.prog (.functionEnd c.name) j ∧
    ∀ s st, st.pc = j → st.regs .rbp = K.frame → R s st.mem →
      (∀ x, v = some x → st.regs .rax = x) → E.post (.returned v) s st

theorem drop_operand {d : Nat} (v : Word) (h : d ≤ stk.length) :
    (v :: stk).drop ((v :: stk).length - d) = stk.drop (stk.length - d) := by
  rw [List.length_cons, Nat.succ_sub h, List.drop_succ_cons]

/-- A jump drops the operands that have come since the start of the loop. -/
theorem Exits.push (h : Exits K R c stk E) (v : Word) : Exits K R c (v :: stk) E where
  broke ht t ts hl := by
    obtain ⟨hd, j, hj, hp⟩ := h.broke ht t ts hl
    refine ⟨Nat.le_succ_of_le hd, j, hj, ?_⟩
    rw [drop_operand v hd]
    exact hp
  continued ht t ts hl := by
    obtain ⟨hd, j, hj, hp⟩ := h.continued ht t ts hl
    refine ⟨Nat.le_succ_of_le hd, j, hj, ?_⟩
    rw [drop_operand v hd]
    exact hp
  returned := h.returned

/-- Inside of a loop jumps lead to its own labels. -/
theorem Exits.inLoop (h : Exits K R c stk E) {n finish again : Nat}
    (hf : Marks K.prog (.numbered .finish n) finish)
    (ha : Marks K.prog (.numbered .again n) again) :
    Exits K R (c.inLoop n stk.length) stk (E.inLoop K R finish again stk) where
  broke _ t ts hl := by
    cases hl
    refine ⟨Nat.le_refl _, finish, hf, fun s st hat => ?_⟩
    rwa [Nat.sub_self] at hat
  continued _ t ts hl := by
    cases hl
    refine ⟨Nat.le_refl _, again, ha, fun s st hat => ?_⟩
    rwa [Nat.sub_self] at hat
  returned := h.returned

theorem Represents.inLoop (h : Represents K c o R addr) (n d : Nat) :
    Represents K (c.inLoop n d) o R addr where
  __ := h
  named id r lea hn hl := h.named id r lea hn (hl.withLoops c.loops)

/-- A last step that needs no code. -/
theorem Implements.bind_ofOption {α β : Type} {x : Run σ α} {y : α → Option β}
    {mid : α → List Word} {after : β → List Word} (h : Implements K R E ls stk x mid)
    (hy : ∀ a b, y a = some b → mid a = after b) :
    Implements K R E ls stk (x >>= fun a => Run.ofOption (y a)) after := by
  intro i s st r s' hc hroom hat hrun he
  rcases Run.bind_eq_some.mp hrun with ⟨a, s₁, ha, hrun⟩ | ⟨e, ha, rfl⟩
  · obtain ⟨b, hb, hrun⟩ := Option.map_eq_some_iff.mp hrun
    cases hrun
    refine (h i s st _ s' hc hroom hat ha trivial).mono fun st₁ h₁ => ?_
    rw [Lands, ← hy a b hb]
    exact h₁
  · exact h i s st _ s' hc hroom hat ha he

theorem moves_nil {stk' : List Word} (h : stk = stk') : Moves K R [] stk stk' := by
  subst h
  exact fun i s st _ _ hat => .here hat

theorem moves_pop (v : Word) : Moves K R [.instr (.pop .rax)] (v :: stk) stk :=
  fun i s st hc _ h => h.pop hc (by decide) fun st₁ h₁ _ _ => .here h₁

theorem implements_exit {α : Type} {e : Exit} {after : α → List Word}
    (h : E.takes e → ∀ i s st, CodeAt K.prog i ls → At K R i s stk st →
      Reaches K.world K.prog (E.post e s) st) :
    Implements K R E ls stk (Run.exit e) after := by
  intro i s st r s' hc hroom hat hrun he
  cases hrun
  exact h he i s st hc hat

/-- The jump to the end of the function. -/
theorem Exits.jumpEnd (h : Exits K R c stk E) {v : Option Word} {i : Nat} {s : σ} {st : State}
    (ht : E.takes (.returned v)) (hc : CodeAt K.prog i (.instr (.jump (.functionEnd c.name)) :: ls))
    (hpc : st.pc = i) (hrbp : st.regs .rbp = K.frame) (hrel : R s st.mem)
    (hv : ∀ x, v = some x → st.regs .rax = x) :
    Reaches K.world K.prog (E.post (.returned v) s) st := by
  obtain ⟨j, hj, hpost⟩ := h.returned v ht
  have hfetch : K.prog[st.pc]? = some (.instr (.jump (.functionEnd c.name))) := by
    rw [hpc]
    exact hc.head
  exact .jump hfetch hj (.here (hpost s _ rfl hrbp hrel hv))

variable {rounds : Nat}

/-- Both logical operators in one form. -/
theorem eval_logical {i : Info} {op : BinaryOp} {l r : Node} (hop : op = .logAnd ∨ op = .logOr) :
    eval o rounds (.binary i op l r) = (do
      let v ← eval o rounds l
      if holds (decided op).1 v 0 then pure (bit (decided op).2)
      else do return bit (if holds (decided op).1 (← eval o rounds r) 0 then (decided op).2
        else !(decided op).2)) := by
  rcases hop with rfl | rfl
  · rw [eval]
    refine bind_congr fun v => ?_
    simp only [decided, holds_equal_zero, decide_eq_true_eq]
    refine if_congr Iff.rfl rfl (bind_congr fun w => ?_)
    by_cases hw : w = 0 <;> simp [hw, bit]
  · rw [eval]
    refine bind_congr fun v => ?_
    by_cases hv : v = 0
    · simp only [hv, decided, holds, bne_self_eq_false, Bool.false_eq_true, if_false, if_true]
      refine bind_congr fun w => ?_
      by_cases hw : w = 0 <;> simp [hw, bit]
    · simp [decided, holds, bit]

theorem eval_binary {i : Info} {op : BinaryOp} {l r : Node} (hop : ¬(op = .logAnd ∨ op = .logOr)) :
    eval o rounds (.binary i op l r) = (do
      let a ← eval o rounds l
      let b ← eval o rounds r
      Run.ofOption (apply op a b)) := by
  obtain ⟨hand, hor⟩ := not_or.mp hop
  rw [eval]
  · exact hand
  · exact hor

/-- There are as many values as arguments. -/
theorem length_of_evalAll {es : List Node} {s s' : σ} {vs : List Word}
    (h : evalAll o rounds es s = some (.ok vs, s')) : vs.length = es.length := by
  induction es generalizing s vs with
  | nil =>
    cases h
    rfl
  | cons e es ih =>
    rw [evalAll] at h
    rcases Run.bind_eq_some.mp h with ⟨v, s₁, -, h⟩ | ⟨_, -, h⟩
    · rcases Run.bind_eq_some.mp h with ⟨ws, s₂, hws, h⟩ | ⟨_, -, h⟩
      · cases h
        rw [List.length_cons, List.length_cons, ih hws]
      · exact nomatch h
    · exact nomatch h

/-- The arguments are taken into registers, and the result becomes an operand. -/
theorem implements_call {as : List Line} {args : List Node} {t : CType} {name : String}
    (hr : Represents K c o R addr) (hn : args.length ≤ argumentRegs.length)
    (ha : Implements K R E as stk (evalAll o rounds args) fun vs => vs.reverse ++ stk) :
    Implements K R E (as ++ (popLines (argumentRegs.take args.length) ++
        (callLines name args.length stk.length ++
          ((extendResult t).lines ++ [.instr (.push .rax)])))) stk
      (do
        let vs ← evalAll o rounds args
        return returned t (← Run.changing (o.call name vs)))
      fun v => v :: stk := by
  intro i s st r s' hc hroom h hrun he
  simp only [pushes_append, pushes_cons, isPush, if_true] at hroom
  have hone : 8 * (stk.length + 1) ≤ K.room := by omega
  rcases Run.bind_eq_some.mp hrun with ⟨vs, s₁, hvs, hrun⟩ | ⟨e, hvs, rfl⟩
  · rcases Run.bind_eq_some.mp hrun with ⟨v, s₂, hv, hrun⟩ | ⟨e, hv, -⟩
    · obtain ⟨⟨v', s₃⟩, hcall, he'⟩ := Option.map_eq_some_iff.mp hv
      cases he'
      cases hrun
      have hlen := length_of_evalAll hvs
      have hregs : (argumentRegs.take args.length).length = args.length := by
        rw [List.length_take, Nat.min_eq_left hn]
      have hnodup : (argumentRegs.take args.length).reverse.Nodup :=
        List.nodup_reverse.mpr ((List.take_sublist _ _).nodup (by decide))
      have hfree : ∀ q ∈ (argumentRegs.take args.length).reverse, q ≠ .rsp ∧ q ≠ .rbp := by
        intro q hq
        have hall : ∀ q ∈ argumentRegs, q ≠ .rsp ∧ q ≠ .rbp := by decide
        exact hall q (List.mem_of_mem_take (List.mem_reverse.mp hq))
      refine (ha i s st _ s₁ hc.left (by omega) h hvs trivial).trans fun st₁ h₁ => ?_
      refine At.pops h₁ (by simp [hlen, hregs]) hnodup hfree hc.right fun st₂ h₂ hm₂ _ => ?_
      have hargs : (argumentRegs.take vs.length).map st₂.regs = vs := by
        rw [hlen]
        rwa [List.map_reverse, List.reverse_inj] at hm₂
      have hcc := hc.right.right
      rw [popLines, List.length_map] at hcc
      refine h₂.call hr hcc hone hlen hargs hcall fun st₃ h₃ hv₃ => ?_
      refine h₃.extendResult hcc.right hv₃ fun st₄ h₄ hv₄ => ?_
      refine h₄.push hr.apart hcc.right.right hone hv₄ fun st₅ h₅ => .here (h₅.cast ?_)
      simp only [popLines, List.length_append, List.length_cons, List.length_nil, List.length_map]
      omega
    · obtain ⟨_, -, he'⟩ := Option.map_eq_some_iff.mp hv
      cases he'
  · exact ha i s st _ s' hc.left (by omega) h hvs he

def Simulated (K : Setting) (R : σ → Memory → Prop) (o : Objects σ ρ) (addr : ρ → Word)
    (rounds : Nat) (E : Handler σ) (ls : List Line) (stk : List Word) : Task → Prop
  | .value x => Implements K R E ls stk (eval o rounds x) fun v => v :: stk
  | .address x => Implements K R E ls stk (object o rounds x) fun r => addr r :: stk
  | .arguments xs => Implements K R E ls stk (evalAll o rounds xs) fun vs => vs.reverse ++ stk
  | .statementValue xs => Implements K R E ls stk (evalItems o rounds xs) fun v => v :: stk
  | .statement x => Implements K R E ls stk (perform o rounds x) fun _ => stk
  | .statements xs => Implements K R E ls stk (performAll o rounds xs) fun _ => stk
  | .optional x => Implements K R E ls stk (performOption o rounds x) fun _ => stk

/-- Emitted lines do what the interpreter does with the tree. -/
theorem emits_simulated {task : Task} {d n n' : Nat} (h : Emits c task d n ls n')
    (hr : Represents K c o R addr) (hE : Exits K R c stk E) (hd : stk.length = d) :
    Simulated K R o addr rounds E ls stk task := by
  -- Operands wait on the stack while others are computed, and loops deal with jumps of their own,
  -- so both the operands and the handler of exits vary.
  induction h generalizing stk E with
  | num => exact .pure (moves_literal hr.apart _)
  | @var c i id t lea ls d n hv ht hl =>
    show Implements K R E ([.instr lea, .instr (.push .rax)] ++ ls) stk _ _
    rw [eval, ht]
    refine .bind (.ofOption fun r hn => moves_lea hr.apart hv (hr.named id r lea hn hv)) ?_
      fun r => implements_loads hr hl
    intro r
    simp [isPush]
  | @deref c i e t a ls d n n' he ht hl ih =>
    have hp := emits_pushes he
    rw [Simulated, eval, ht]
    refine (ih hr hE hd).bind (fun v => ?_) fun v => .ofOption_bind fun r hn => ?_
    · exact Nat.add_le_add_left hp _
    · rw [← hr.pointee v r hn]
      exact implements_loads hr hl
  | @member c i b name m t a ls d n n' hb ht hl ih =>
    rw [Simulated, eval, ht]
    refine (ih hr hE hd).bind (fun r => Nat.add_le_add_left (emits_pushes hb) _) fun r => ?_
    refine .bind (.ofOption fun r' hn => ?_) ?_ fun r' => implements_loads hr hl
    · rw [hr.member r _ r' hn]
      exact moves_memberLines hr.apart m
    · intro r'
      simp [memberLines, isPush]
  | addr he ih =>
    rw [Simulated, eval]
    exact (ih hr hE hd).bind_ofOption fun r v hv => by rw [hr.address r v hv]
  | assign hl hr' ht hw ihl ihr =>
    rw [Simulated, eval, ht]
    -- The address waits below the value.
    refine (ihl hr hE hd).bind (fun r => Nat.add_le_add_left (emits_pushes hl) _) fun r => ?_
    refine (ihr hr (hE.push _) (congrArg (· + 1) hd)).bind (fun v => ?_)
      fun v => implements_store hr hw
    exact Nat.add_le_add_left (emits_pushes hr') _
  | logical hop hl hr' ihl ihr =>
    rw [Simulated, eval_logical hop]
    refine (ihl hr hE hd).bind (fun v => Nat.add_le_add_left (emits_pushes hl) _) fun v => ?_
    exact implements_logical hr.apart (ihr hr hE hd)
  | binary hop hl hr' ihl ihr =>
    rw [Simulated, eval_binary hop]
    refine (ihl hr hE hd).bind (fun v => Nat.add_le_add_left (emits_pushes hl) _) fun v => ?_
    refine (ihr hr (hE.push _) (congrArg (· + 1) hd)).bind (fun w => ?_) fun w => ?_
    · exact Nat.add_le_add_left (emits_pushes hr') _
    · exact .ofOption fun x hx => moves_binary hr.apart hx
  | not he ih =>
    rw [Simulated, eval]
    refine (ih hr hE hd).bind (fun v => Nat.add_le_add_left (emits_pushes he) _) fun v => ?_
    exact .pure (moves_not hr.apart)
  | ternary he hx hy ihe ihx ihy =>
    rw [Simulated, eval]
    refine (ihe hr hE hd).bind (fun v => Nat.add_le_add_left (emits_pushes he) _) fun v => ?_
    exact implements_choice hr.apart (ihx hr hE hd) (ihy hr hE hd)
  | call ht hn ha ih =>
    subst hd
    rw [Simulated, eval, ht]
    exact implements_call hr hn (ih hr hE rfl)
  | stmtExpr h ih => exact ih hr hE hd
  | @varAddress c i id lea d n hv =>
    exact .ofOption fun r hn => moves_lea hr.apart hv (hr.named id r lea hn hv)
  | derefAddress he ih =>
    rw [Simulated, object]
    exact (ih hr hE hd).bind_ofOption fun v r hn => by rw [hr.pointee v r hn]
  | memberAddress hb ih =>
    rw [Simulated, object]
    refine (ih hr hE hd).bind (fun r => Nat.add_le_add_left (emits_pushes hb) _) fun r => ?_
    refine .ofOption fun r' hn => ?_
    rw [hr.member r _ r' hn]
    exact moves_memberLines hr.apart _
  | noArguments => exact .pure (moves_nil rfl)
  | argument he hs ihe ihs =>
    rw [Simulated, evalAll]
    refine (ihe hr hE hd).bind (fun v => Nat.add_le_add_left (emits_pushes he) _) fun v => ?_
    refine Implements.bind_ofOption (y := fun vs => some (v :: vs))
      (ihs hr (hE.push v) (congrArg (· + 1) hd)) ?_
    rintro vs _ ⟨⟩
    simp
  | lastItem he ih => exact ih hr hE hd
  | item hx hs ihx ihs =>
    rw [Simulated, evalItems]
    · exact (ihx hr hE hd).bind (fun _ => Nat.le_add_right _ _) fun _ => ihs hr hE hd
    · rintro ⟨⟩
  | exprStmt he ih =>
    rw [Simulated, perform]
    refine (ih hr hE hd).bind (fun v => Nat.add_le_add_left (emits_pushes he) _) fun v => ?_
    exact .pure (moves_pop v)
  | retVoid =>
    refine implements_exit fun ht i s st hc h => ?_
    refine hE.jumpEnd ht hc h.pc h.frame h.agrees ?_
    rintro _ ⟨⟩
  | ret he ih =>
    rw [Simulated, perform]
    refine (ih hr hE hd).bind (fun v => Nat.add_le_add_left (emits_pushes he) _) fun v => ?_
    refine implements_exit fun ht i s st hc h => ?_
    refine h.pop hc (by decide) fun st₁ h₁ hv₁ _ => ?_
    refine hE.jumpEnd ht hc.tail h₁.pc h₁.frame h₁.agrees ?_
    rintro _ ⟨⟩
    exact hv₁
  | block h ih => exact ih hr hE hd
  | ifElse he hx hy ihe ihx ihy =>
    rw [Simulated, perform]
    refine (ihe hr hE hd).bind (fun v => Nat.add_le_add_left (emits_pushes he) _) fun v => ?_
    exact implements_branch (ihx hr hE hd) (ihy hr hE hd)
  | @whileLoop c i e x a b d n n₁ n₂ he hx ihe ihx =>
    subst hd
    show Implements K R E (loopLines (n + 1) a b []) stk _ _
    refine implements_loop (ihe hr hE rfl) (fun finish again hf ha => ?_) (.pure (moves_nil rfl)) _
    exact ihx (hr.inLoop _ _) (hE.inLoop hf ha) rfl
  | @forLoop c i init e update x f a b u d n n₁ n₂ n₃ n₄ hf he hx hu ihf ihe ihx ihu =>
    subst hd
    show Implements K R E (f ++ loopLines (n + 1) a b u) stk _ _
    rw [perform]
    refine (ihf hr hE rfl).bind (fun _ => Nat.le_add_right _ _) fun _ => ?_
    refine implements_loop (ihe hr hE rfl) (fun finish again hf ha => ?_) (ihu hr hE rfl) _
    exact ihx (hr.inLoop _ _) (hE.inLoop hf ha) rfl
  | breakLoop hc hd' =>
    subst hd
    -- The operands since the start of the loop are dropped on the way.
    refine implements_exit fun ht i s st hcode h => ?_
    obtain ⟨-, j, hj, hpost⟩ := hE.broke ht _ _ hc
    refine h.drop (Nat.sub_le _ _) hcode fun st₁ h₁ => ?_
    exact h₁.jump hcode.right hj fun h₂ => .here (hpost s _ h₂)
  | continueLoop hc hd' =>
    subst hd
    refine implements_exit fun ht i s st hcode h => ?_
    obtain ⟨-, j, hj, hpost⟩ := hE.continued ht _ _ hc
    refine h.drop (Nat.sub_le _ _) hcode fun st₁ h₁ => ?_
    exact h₁.jump hcode.right hj fun h₂ => .here (hpost s _ h₂)
  | empty => exact .pure (moves_nil rfl)
  | noStatements => exact .pure (moves_nil rfl)
  | statement hx hs ihx ihs =>
    rw [Simulated, performAll]
    exact (ihx hr hE hd).bind (fun _ => Nat.le_add_right _ _) fun _ => ihs hr hE hd
  | absent => exact .pure (moves_nil rfl)
  | present hx ih => exact ih hr hE hd

end Simulation

end StackC
