import StackC.Proofs.Simulation.Fragments

namespace StackC

namespace Simulation

open Assembly Emission Machine Semantics

variable {σ : Type} {K : Setting} {R : σ → Memory → Prop} {P : State → Prop} {E : Handler σ}
  {i : Nat} {s : σ} {stk : List Word} {st : State} {ls as bs : List Line} {v : Word}

theorem holds_equal_zero (v : Word) : holds .equal v 0 = decide (v = 0) := rfl

/-- The label at the head of lines that stand in the program. -/
theorem Setting.mark {r : LabelRole} {n : Nat}
    (hc : CodeAt K.prog i (.label (.numbered r n) :: ls)) : Marks K.prog (.numbered r n) i :=
  K.unambiguous.marks hc.head nofun

/-- The test leads to the lines of the branch that is taken, and both branches lead behind the
last line. -/
theorem implements_branch {x y : Run σ Unit} {n : Nat} (hx : Implements K R E as stk x fun _ => stk)
    (hy : Implements K R E bs stk y fun _ => stk) :
    Implements K R E (testLines .equal (.numbered .other n) ++
        (as ++ (.instr (.jump (.numbered .finish n)) :: .label (.numbered .other n) ::
          (bs ++ [.label (.numbered .finish n)])))) (v :: stk)
      (if v = 0 then y else x) fun _ => stk := by
  intro i s st r s' hc hroom h hrun he
  simp only [pushes_append, pushes_cons, List.length_cons] at hroom
  have hcx : CodeAt K.prog (i + 3) as := hc.right.left
  have hcj := hc.right.right
  have hcy := hcj.tail.tail
  have hother := Setting.mark hcj.tail
  have hfinish := Setting.mark hcy.right
  refine h.test hc hother fun st₁ h₁ => ?_
  rw [holds_equal_zero] at h₁
  by_cases hv : v = 0
  · simp only [hv, decide_true, if_true] at h₁ hrun
    refine h₁.label hcj.tail fun h₂ => ?_
    refine (hy _ s _ r s' hcy.left (by omega) h₂ hrun he).trans fun st₃ h₃ => ?_
    cases r with
    | error e => exact .here h₃
    | ok _ =>
      refine h₃.label hcy.right fun h₄ => .here (h₄.cast ?_)
      simp only [testLines, List.length_append, List.length_cons, List.length_nil]
      omega
  · simp only [hv, decide_false, if_false, Bool.false_eq_true] at h₁ hrun
    refine (hx _ s _ r s' hcx (by omega) h₁ hrun he).trans fun st₃ h₃ => ?_
    cases r with
    | error e => exact .here h₃
    | ok _ =>
      refine h₃.jump hcj hfinish fun h₄ => ?_
      refine h₄.label hcy.right fun h₅ => .here (h₅.cast ?_)
      simp only [testLines, List.length_append, List.length_cons, List.length_nil]
      omega

/-- Both branches leave their value in `%rax`, and it is pushed where they meet. -/
theorem implements_choice (ha : Apart K R) {x y : Run σ Word} {n : Nat}
    (hx : Implements K R E as stk x fun w => w :: stk)
    (hy : Implements K R E bs stk y fun w => w :: stk) :
    Implements K R E (testLines .equal (.numbered .other n) ++
        (as ++ (.instr (.pop .rax) :: .instr (.jump (.numbered .finish n)) ::
          .label (.numbered .other n) ::
            (bs ++ [.instr (.pop .rax), .label (.numbered .finish n), .instr (.push .rax)]))))
      (v :: stk) (if v = 0 then y else x) fun w => w :: stk := by
  intro i s st r s' hc hroom h hrun he
  simp only [pushes_append, pushes_cons, List.length_cons] at hroom
  have hone : 8 * (stk.length + 1) ≤ K.room := by omega
  have hcx : CodeAt K.prog (i + 3) as := hc.right.left
  have hcj := hc.right.right
  have hcy := hcj.tail.tail.tail
  have hother := Setting.mark hcj.tail.tail
  have hcf := hcy.right.tail
  have hfinish := Setting.mark hcf
  refine h.test hc hother fun st₁ h₁ => ?_
  rw [holds_equal_zero] at h₁
  by_cases hv : v = 0
  · simp only [hv, decide_true, if_true] at h₁ hrun
    refine h₁.label hcj.tail.tail fun h₂ => ?_
    refine (hy _ s _ r s' hcy.left (by omega) h₂ hrun he).trans fun st₃ h₃ => ?_
    cases r with
    | error e => exact .here h₃
    | ok w =>
      refine h₃.pop hcy.right (by decide) fun st₄ h₄ hr₄ _ => ?_
      refine h₄.label hcf fun h₅ => ?_
      refine h₅.push ha hcf.tail hone hr₄ fun st₆ h₆ => .here (h₆.cast ?_)
      simp only [testLines, List.length_append, List.length_cons, List.length_nil]
      omega
  · simp only [hv, decide_false, if_false, Bool.false_eq_true] at h₁ hrun
    refine (hx _ s _ r s' hcx (by omega) h₁ hrun he).trans fun st₃ h₃ => ?_
    cases r with
    | error e => exact .here h₃
    | ok w =>
      refine h₃.pop hcj (by decide) fun st₄ h₄ hr₄ _ => ?_
      refine h₄.jump hcj.tail hfinish fun h₅ => ?_
      refine h₅.label hcf fun h₆ => ?_
      refine h₆.push ha hcf.tail hone hr₄ fun st₇ h₇ => .here (h₇.cast ?_)
      simp only [testLines, List.length_append, List.length_cons, List.length_nil]
      omega

theorem exec_truth (symbol : String → Word) (st : State) (b : Bool) :
    exec symbol st (truth b) = some (st.set .rax (bit b)) := by
  cases b <;> rfl

/-- No operand has decided the result. -/
theorem At.undecided (ha : Apart K R) {b : Bool} {n : Nat} (h : At K R i s stk st)
    (hc : CodeAt K.prog i (logicalLines b n)) (hroom : 8 * (stk.length + 1) ≤ K.room) :
    Reaches K.world K.prog (At K R (i + 6) s (bit (!b) :: stk)) st := by
  have hcf := hc.tail.tail.tail.tail
  refine h.quiet hc (exec_truth _ _ _) (h.set (by decide) _) fun h₁ => ?_
  refine h₁.jump hc.tail (Setting.mark hcf) fun h₂ => ?_
  refine h₂.label hcf fun h₃ => ?_
  exact h₃.push ha hcf.tail hroom (by simp) fun st₄ h₄ => .here h₄

/-- An operand has decided the result. -/
theorem At.decided (ha : Apart K R) {b : Bool} {n : Nat} (h : At K R (i + 2) s stk st)
    (hc : CodeAt K.prog i (logicalLines b n)) (hroom : 8 * (stk.length + 1) ≤ K.room) :
    Reaches K.world K.prog (At K R (i + 6) s (bit b :: stk)) st := by
  have hcs := hc.tail.tail
  refine h.label hcs fun h₁ => ?_
  refine h₁.quiet hcs.tail (exec_truth _ _ _) (h₁.set (by decide) _) fun h₂ => ?_
  refine h₂.label hcs.tail.tail fun h₃ => ?_
  exact h₃.push ha hcs.tail.tail.tail hroom (by simp) fun st₄ h₄ => .here h₄

/-- The second operand is evaluated unless the first decides the result. -/
theorem implements_logical (ha : Apart K R) {y : Run σ Word} {cond : Cond} {b : Bool} {n : Nat}
    (hy : Implements K R E as stk y fun w => w :: stk) :
    Implements K R E (testLines cond (.numbered .short n) ++
        (as ++ (testLines cond (.numbered .short n) ++ logicalLines b n))) (v :: stk)
      (if holds cond v 0 then pure (bit b)
        else do return bit (if holds cond (← y) 0 then b else !b))
      fun w => w :: stk := by
  intro i s st r s' hc hroom h hrun he
  simp only [pushes_append, logicalLines, pushes_cons, isPush, List.length_cons, if_true] at hroom
  have hone : 8 * (stk.length + 1) ≤ K.room := by omega
  have hcy : CodeAt K.prog (i + 3) as := hc.right.left
  have hct := hc.right.right
  have hcl : CodeAt K.prog (i + 3 + as.length + 3) (logicalLines b n) := hct.right
  have hshort := Setting.mark hcl.tail.tail
  have hend : i + 3 + as.length + 3 + 6 = i + (testLines cond (.numbered .short n) ++
      (as ++ (testLines cond (.numbered .short n) ++ logicalLines b n))).length := by
    simp only [testLines, logicalLines, List.length_append, List.length_cons, List.length_nil]
    omega
  rw [← hend]
  refine h.test hc hshort fun st₁ h₁ => ?_
  cases hd : holds cond v 0 with
  | true =>
    rw [hd, if_pos rfl] at h₁ hrun
    cases hrun
    exact h₁.decided ha hcl hone
  | false =>
    rw [hd, if_neg Bool.false_ne_true] at h₁ hrun
    rcases Run.bind_eq_some.mp hrun with ⟨w, s₁, hw, hrun⟩ | ⟨e, hw, rfl⟩
    · cases hrun
      refine (hy _ s _ _ s' hcy (by omega) h₁ hw trivial).trans fun st₂ h₂ => ?_
      refine At.test h₂ hct hshort fun st₃ h₃ => ?_
      cases hd' : holds cond w 0 with
      | true =>
        rw [hd', if_pos rfl] at h₃
        simp only [if_true]
        exact h₃.decided ha hcl hone
      | false =>
        rw [hd', if_neg Bool.false_ne_true] at h₃
        simp only [Bool.false_eq_true, if_false]
        exact h₃.undecided ha hcl hone
    · exact hy _ s _ _ s' hcy (by omega) h₁ hw he

/-- What jumps out of the body of a loop lead to: the lines with the given indices, with the
operands as they were at the start of the loop. Returns go on as outside of the loop. -/
def Handler.inLoop (K : Setting) (R : σ → Memory → Prop) (E : Handler σ) (finish again : Nat)
    (stk : List Word) : Handler σ where
  takes
    | .broke | .continued => True
    | .returned v => E.takes (.returned v)
  post
    | .broke, s, st => At K R finish s stk st
    | .continued, s, st => At K R again s stk st
    | .returned v, s, st => E.post (.returned v) s st

/-- The body of a loop has come to its end or to a jump. -/
theorem round_cases {body : Run σ Unit} {r : Except Exit Bool} {s' : σ}
    (h : Run.round body s = some (r, s')) :
    (body s = some (.ok (), s') ∨ body s = some (.error .continued, s')) ∧ r = .ok true ∨
      body s = some (.error .broke, s') ∧ r = .ok false ∨
      ∃ v, body s = some (.error (.returned v), s') ∧ r = .error (.returned v) := by
  unfold Run.round at h
  rcases hb : body s with _ | ⟨e | u, s₁⟩
  · simp only [hb] at h
    exact nomatch h
  · cases e with
    | broke =>
      simp only [hb] at h
      cases h
      exact .inr (.inl ⟨rfl, rfl⟩)
    | continued =>
      simp only [hb] at h
      cases h
      exact .inl ⟨.inr rfl, rfl⟩
    | returned v =>
      simp only [hb] at h
      cases h
      exact .inr (.inr ⟨v, rfl, rfl⟩)
  · simp only [hb] at h
    cases h
    exact .inl ⟨.inl rfl, rfl⟩

def loopLines (n : Nat) (cond body update : List Line) : List Line :=
  .label (.numbered .start n) :: (cond ++ (testLines .equal (.numbered .finish n) ++
    (body ++ (.label (.numbered .again n) ::
      (update ++ [.instr (.jump (.numbered .start n)), .label (.numbered .finish n)])))))

/-- The lines of a loop run the body as often as the interpreter does. -/
theorem implements_loop {cond : Run σ Word} {body update : Run σ Unit} {us : List Line} {n : Nat}
    (hcond : Implements K R E as stk cond fun v => v :: stk)
    (hbody : ∀ finish again, Marks K.prog (.numbered .finish n) finish →
      Marks K.prog (.numbered .again n) again →
      Implements K R (E.inLoop K R finish again stk) bs stk body fun _ => stk)
    (hupdate : Implements K R E us stk update fun _ => stk) (rounds : Nat) :
    Implements K R E (loopLines n as bs us) stk (Run.loop cond body update rounds)
      fun _ => stk := by
  intro i s st r s' hc hroom h hrun he
  simp only [loopLines, pushes_append, pushes_cons] at hroom
  have hct := hc.tail.right
  have hcb := hct.right
  have hca := hcb.right
  have hcj := hca.tail.right
  have hstart := Setting.mark hc
  have hagain := Setting.mark hca
  have hfinish := Setting.mark hcj.tail
  have hend : i + (loopLines n as bs us).length = i + 1 + as.length + 3 + bs.length + 1 +
    us.length + 1 + 1 := by
    simp only [loopLines, testLines, List.length_append, List.length_cons, List.length_nil]
    omega
  rw [hend]
  -- The invariant is that a round begins at the first line, with the operands as they were.
  induction rounds generalizing s st with
  | zero => cases hrun
  | succ m ih =>
    refine h.label hc fun h₁ => ?_
    rcases Run.bind_eq_some.mp hrun with ⟨v, s₁, hv, hrun⟩ | ⟨e, hv, rfl⟩
    · refine (hcond _ s _ _ s₁ hc.tail.left (by omega) h₁ hv trivial).trans fun st₂ h₂ => ?_
      refine At.test h₂ hct hfinish fun st₃ h₃ => ?_
      rw [holds_equal_zero] at h₃
      by_cases hz : v = 0
      · simp only [hz, decide_true, if_true] at h₃ hrun
        cases hrun
        exact h₃.label hcj.tail fun h₄ => .here h₄
      · simp only [hz, decide_false, if_false, Bool.false_eq_true] at h₃ hrun
        have honce := hbody _ _ hfinish hagain (i + 1 + as.length + 3) s₁ st₃
        -- Where the body has come to its end, the update and the next round follow.
        have hnext {s₂ : σ} {st₄ : State}
          (h₄ : At K R (i + 1 + as.length + 3 + bs.length) s₂ stk st₄)
          (hrun : (update >>= fun _ => Run.loop cond body update m) s₂ = some (r, s')) : Reaches
          K.world K.prog (Lands K R E (i + 1 + as.length + 3 + bs.length + 1 + us.length + 1 + 1)
            (fun _ => stk) r s') st₄ := by
          refine h₄.label hca fun h₅ => ?_
          rcases Run.bind_eq_some.mp hrun with ⟨_, s₃, hu, hrun⟩ | ⟨e, hu, rfl⟩
          · refine (hupdate _ s₂ _ _ s₃ hca.tail.left (by omega) h₅ hu trivial).trans
              fun st₆ h₆ => ?_
            exact At.jump h₆ hcj hstart fun h₇ => ih _ _ h₇ hrun
          · exact hupdate _ s₂ _ _ s' hca.tail.left (by omega) h₅ hu he
        rcases Run.bind_eq_some.mp hrun with ⟨b, s₂, hround, hrun⟩ | ⟨e, hround, rfl⟩
        · rcases round_cases hround with ⟨hb | hb, hb'⟩ | ⟨hb, hb'⟩ | ⟨v, hb, hb'⟩
          · cases hb'
            exact (honce _ s₂ hcb.left (by omega) h₃ hb trivial).trans fun st₄ h₄ => hnext h₄ hrun
          · cases hb'
            exact (honce _ s₂ hcb.left (by omega) h₃ hb trivial).trans fun st₄ h₄ => hnext h₄ hrun
          · cases hb'
            cases hrun
            refine (honce _ s' hcb.left (by omega) h₃ hb trivial).trans fun st₄ h₄ => ?_
            exact At.label h₄ hcj.tail fun h₅ => .here h₅
          · cases hb'
        · rcases round_cases hround with ⟨-, hb'⟩ | ⟨-, hb'⟩ | ⟨v, hb, hb'⟩
          · cases hb'
          · cases hb'
          · cases hb'
            exact honce _ s' hcb.left (by omega) h₃ hb he
    · exact hcond _ s _ _ s' hc.tail.left (by omega) h₁ hv he

end Simulation

end StackC
