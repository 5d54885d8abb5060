import StackC.Proofs.Emission.Depth
import StackC.Proofs.Emission.Operands
import StackC.Proofs.Simulation.Logic
import StackC.Proofs.StackDiscipline

namespace StackC

namespace Emission

open Assembly Simulation

/-- The registers that the code of an expression without effects writes, apart from the stack
pointer. -/
def scratch : List Reg := [.rax, .rdi, .rdx]

/-- Whether a line writes only operand slots and scratch registers, and jumps only to a label that
is numbered. -/
def isQuiet : Line → Bool
  | .label _ => true
  | .directive _ => false
  | .instr i =>
    match i with
    | .push _ | .cmp _ _ | .cmpZero _ | .signIntoRdx | .divide _ => true
    | .pop r | .movImm _ _ r | .movAbs _ r | .mov _ r | .load _ _ r | .leaFrame _ r | .leaSymbol _ r
    | .arith _ _ r | .addImm _ r | .extendFlag r | .setFlag _ r => scratch.contains r
    | .jump l | .jumpIf _ l => l.isNumbered
    | .store _ _ _ | .storeFrame _ _ _ | .subImm _ _ | .extend _ _ | .call _ _ | .ret => false

theorem eq_of_scratch {r : Reg} (h : scratch.contains r = true) :
    r = .rax ∨ r = .rdi ∨ r = .rdx := by
  simpa [scratch] using h

/-- A quiet line adds at most the slot that it pushes. -/
theorem slotShift_le {x : Line} {k : Int} (hq : isQuiet x = true) (hk : slotShift? x = some k) :
    k ≤ if isPush x then 1 else 0 := by
  cases x with
  | label =>
    cases hk
    simp [isPush]
  | directive => cases hq
  | instr i =>
    cases i with
    | push | cmp | cmpZero | signIntoRdx | divide | jump | jumpIf =>
      cases hk
      simp [isPush]
    | pop | movImm | movAbs | mov | load | leaFrame | leaSymbol | arith | addImm |
      extendFlag | setFlag =>
      rcases eq_of_scratch hq with rfl | rfl | rfl <;> cases hk <;> simp [isPush]
    | store | storeFrame | subImm | extend | call | ret => cases hq

/-- Lines that write only operand slots and scratch registers, with the slots in use before each of
them. The number in use follows from line to line, behind jumps as well. -/
inductive Course (S : Label → Nat → Prop) : Nat → List (Line × Nat) → Nat → Prop where
  | nil {d} : Course S d [] d
  | line {x : Line} {d e f : Nat} {zs : List (Line × Nat)} {k : Int} (hq : isQuiet x = true)
      (hk : slotShift? x = some k) (he : (e : Int) = d + k) (hs : ∀ t, target? x = some t → S t d)
      (h : Course S e zs f) : Course S d ((x, d) :: zs) f

namespace Course

variable {S T : Label → Nat → Prop} {d e f : Nat} {zs ys : List (Line × Nat)}

theorem mono (h : Course S d zs e) (hst : ∀ t k, S t k → T t k) : Course T d zs e := by
  induction h with
  | nil => exact .nil
  | line hq hk he hs _ ih => exact .line hq hk he (fun t ht => hst t _ (hs t ht)) ih

theorem append (hz : Course S d zs e) (hy : Course S e ys f) : Course S d (zs ++ ys) f := by
  induction hz with
  | nil => exact hy
  | line hq hk he hs _ ih => exact .line hq hk he hs (ih hy)

theorem push {r : Reg} (h : Course S (d + 1) zs e) : Course S d ((.instr (.push r), d) :: zs) e :=
  .line rfl rfl (by omega) (by rintro _ ⟨⟩) h

theorem pop {r : Reg} (hq : scratch.contains r = true) (hr : r ≠ .rsp) (h : Course S d zs e) :
    Course S (d + 1) ((.instr (.pop r), d + 1) :: zs) e :=
  .line hq (if_neg hr) (by omega) (by rintro _ ⟨⟩) h

theorem still {x : Line} (hq : isQuiet x = true) (hk : slotShift? x = some 0)
    (ht : target? x = none) (h : Course S d zs e) : Course S d ((x, d) :: zs) e :=
  .line hq hk (by omega) (by simp [ht]) h

theorem branch {cond : Cond} {t : Label} (hq : t.isNumbered = true) (hs : S t d)
    (h : Course S d zs e) :
    Course S d ((.instr (.jumpIf cond t), d) :: zs) e :=
  .line hq rfl (by omega) (fun u hu => by cases hu; exact hs) h

theorem jump {t : Label} (hq : t.isNumbered = true) (hs : S t d) (h : Course S d zs e) :
    Course S d ((.instr (.jump t), d) :: zs) e :=
  .line hq rfl (by omega) (fun u hu => by cases hu; exact hs) h

/-- A flow of quiet lines that do not jump. -/
theorem of_flow (h : Flow T d zs e) (hq : ∀ z ∈ zs, isQuiet z.1 = true ∧ target? z.1 = none) :
    Course S d zs e := by
  induction h with
  | nil => exact .nil
  | line hk he hs hc h ih =>
    obtain ⟨⟨hquiet, ht⟩, hrest⟩ := List.forall_mem_cons.mp hq
    exact .line hquiet hk he (by simp [ht]) (ih hrest)
  | leave hs h ih => cases (hq _ List.mem_cons_self).2

theorem depthAt_zero (h : Course S d zs e) : depthAt zs e 0 = d := by
  cases h <;> rfl

/-- What holds at one line of a course. -/
theorem at_line (h : Course S d zs e) {i k : Nat} {x : Line} (hi : zs[i]? = some (x, k)) :
    isQuiet x = true ∧ (∃ s, slotShift? x = some s ∧ (depthAt zs e (i + 1) : Int) = k + s) ∧
      ∀ t, target? x = some t → S t k := by
  induction h generalizing i with
  | nil => cases hi
  | @line y d f g zs s hq hk he hs h ih =>
    cases i with
    | zero =>
      cases hi
      refine ⟨hq, ⟨s, hk, ?_⟩, hs⟩
      have hz : depthAt ((x, k) :: zs) g 1 = depthAt zs g 0 := rfl
      rw [hz, h.depthAt_zero, he]
    | succ i => exact ih hi

/-- Each push adds one slot at most to those in use. -/
theorem depthAt_le (h : Course S d zs e) (i : Nat) :
    depthAt zs e i ≤ d + pushes (zs.map Prod.fst) := by
  induction h generalizing i with
  | nil => exact Nat.le_add_right _ _
  | @line y d f g zs s hq hk he hs h ih =>
    rw [List.map_cons, pushes_cons]
    cases i with
    | zero => exact Nat.le_add_right _ _
    | succ i =>
      have hrest : depthAt ((y, d) :: zs) g (i + 1) = depthAt zs g i := rfl
      have hle := ih i
      have hshift := slotShift_le hq hk
      rw [hrest]
      split at hshift
      · next hpush =>
        rw [if_pos hpush]
        omega
      · next hpush =>
        rw [if_neg hpush]
        omega

end Course

/-- Lines that lead from `d` slots to `e` and jump only among themselves. -/
def Enclosed (d : Nat) (ls : List Line) (e : Nat) : Prop :=
  ∃ zs, zs.map Prod.fst = ls ∧ Course (fun t k => (.label t, k) ∈ zs) d zs e

namespace Enclosed

variable {d e f : Nat} {as bs ls : List Line}

theorem append (ha : Enclosed d as e) (hb : Enclosed e bs f) : Enclosed d (as ++ bs) f := by
  obtain ⟨zs, rfl, hz⟩ := ha
  obtain ⟨ys, rfl, hy⟩ := hb
  refine ⟨zs ++ ys, by simp, (hz.mono fun t k h => ?_).append (hy.mono fun t k h => ?_)⟩
  · exact List.mem_append_left ys h
  · exact List.mem_append_right zs h

/-- Quiet lines without jumps are enclosed. -/
theorem of_paced {c : Context} (h : Paced c d ls e)
    (hq : ls.all (fun x => isQuiet x && (target? x).isNone) = true) : Enclosed d ls e := by
  obtain ⟨zs, rfl, hz⟩ := h
  refine ⟨zs, rfl, .of_flow hz fun z hmem => ?_⟩
  have hline := List.all_eq_true.mp hq _ (List.mem_map_of_mem hmem)
  rwa [Bool.and_eq_true, Option.isNone_iff_eq_none] at hline

end Enclosed

theorem course_tested {S : Label → Nat → Prop} {cond : Cond} {t : Label} {d : Nat}
    (hq : t.isNumbered = true) (hs : S t d) : Course S (d + 1) (tested cond t d) d :=
  .pop rfl (by decide) (.still rfl rfl rfl (.branch hq hs .nil))

theorem quiet_lea {c : Context} {id : VarId} {lea : Instr} (h : Locates c id lea) :
    [Line.instr lea, .instr (.push .rax)].all
      (fun x => isQuiet x && (target? x).isNone) = true := by
  cases h with
  | onFrame | inData => rfl

theorem quiet_literal (v : Int64) :
    [Line.instr (literal v), .instr (.push .rax)].all
      (fun x => isQuiet x && (target? x).isNone) = true := by
  unfold literal
  split
  · rfl
  · rfl

theorem quiet_loads {t : CType} {ls : List Line} (h : Loads t ls) :
    ls.all (fun x => isQuiet x && (target? x).isNone) = true := by
  cases h with
  | aggregate | scalar => rfl

theorem quiet_operation (op : BinaryOp) :
    (operation op).lines.all (fun x => isQuiet x && (target? x).isNone) = true := by
  cases op <;> rfl

def Task.isEffectless : Task → Bool
  | value n | address n => !n.hasEffects
  | _ => false

open Enclosed in
/-- The lines of an expression without effects lead from any number of slots to one more. -/
theorem emits_enclosed {c : Context} {task : Task} {d n n' : Nat} {ls : List Line}
    (h : Emits c task d n ls n') (he : task.isEffectless = true) (k : Nat) :
    Enclosed k ls (k + 1) := by
  induction h generalizing k with
  | @num c => exact .of_paced (paced_literal (c := c) _ k) (quiet_literal _)
  | @var c _ _ _ _ _ _ _ hv _ hl =>
    exact (of_paced (paced_lea hv) (quiet_lea hv)).append
      (.of_paced (paced_loads (c := c) hl) (quiet_loads hl))
  | @deref c _ _ _ _ _ _ _ _ _ _ hl ih =>
    exact (ih he k).append (.of_paced (paced_loads (c := c) hl) (quiet_loads hl))
  | @member c _ _ _ m _ _ _ _ _ _ _ _ hl ih =>
    exact (ih he k).append ((of_paced (paced_memberLines (c := c) m k) rfl).append
      (.of_paced (paced_loads (c := c) hl) (quiet_loads hl)))
  | addr _ ih => exact ih he k
  | @logical c i op l r a b d n n₁ n₂ _ _ _ ihl ihr =>
    rw [Task.isEffectless, Node.hasEffects, Bool.not_or, Bool.and_eq_true] at he
    obtain ⟨za, rfl, ha⟩ := ihl he.1 k
    obtain ⟨zb, rfl, hb⟩ := ihr he.2 k
    let short := Label.numbered .short (n + 1)
    let finish := Label.numbered .finish (n + 1)
    refine ⟨za ++ (tested (decided op).1 short k ++ (zb ++ (tested (decided op).1 short k ++
      [(.instr (truth !(decided op).2), k), (.instr (.jump finish), k), (.label short, k),
        (.instr (truth (decided op).2), k), (.label finish, k), (.instr (.push .rax), k)]))),
      by simp [logicalLines, short, finish], ?_⟩
    refine (ha.mono ?_).append ((course_tested rfl ?_).append
      ((hb.mono ?_).append ((course_tested rfl ?_).append
        (.still rfl rfl rfl (.jump rfl ?_ (.still rfl rfl rfl (.still rfl rfl rfl
          (.still rfl rfl rfl (.push .nil)))))))))
    all_goals simp +contextual [short, finish]
  | @binary c _ op _ _ _ _ _ _ _ _ _ _ _ ihl ihr =>
    rw [Task.isEffectless, Node.hasEffects, Bool.not_or, Bool.and_eq_true] at he
    refine (ihl he.1 k).append ((ihr he.2 (k + 1)).append (.of_paced (c := c)
      (.pop (by decide) (.pop (by decide) ((paced_operation op k).append (.push .nil)))) ?_))
    simp only [List.all_cons, List.all_append, quiet_operation]
    rfl
  | @not c _ _ _ _ _ _ _ ih =>
    exact (ih he k).append (.of_paced (c := c) (.pop (by decide) (.still rfl rfl rfl
      (.still rfl rfl rfl (.still rfl rfl rfl (.push .nil))))) rfl)
  | @ternary c i e x y a b b' d n n₁ n₂ n₃ _ _ _ ihe ihx ihy =>
    rw [Task.isEffectless, Node.hasEffects, Bool.not_or, Bool.not_or, Bool.and_eq_true,
      Bool.and_eq_true] at he
    obtain ⟨za, rfl, ha⟩ := ihe he.1.1 k
    obtain ⟨zb, rfl, hb⟩ := ihx he.1.2 k
    obtain ⟨zb', rfl, hb'⟩ := ihy he.2 k
    let other := Label.numbered .other (n + 1)
    let finish := Label.numbered .finish (n + 1)
    refine ⟨za ++ (tested .equal other k ++ (zb ++ ((.instr (.pop .rax), k + 1) ::
      (.instr (.jump finish), k) :: (.label other, k) :: (zb' ++ [(.instr (.pop .rax), k + 1),
        (.label finish, k), (.instr (.push .rax), k)])))), by simp [other, finish], ?_⟩
    refine (ha.mono ?_).append ((course_tested rfl ?_).append
      ((hb.mono ?_).append (.pop rfl (by decide) (.jump rfl ?_
        (.still rfl rfl rfl ((hb'.mono ?_).append (.pop rfl (by decide)
          (.still rfl rfl rfl (.push .nil)))))))))
    all_goals simp +contextual [other, finish]
  | @varAddress c _ _ _ _ _ hv => exact of_paced (paced_lea hv) (quiet_lea hv)
  | derefAddress _ ih => exact ih he k
  | @memberAddress c _ _ _ m _ _ _ _ _ ih =>
    exact (ih he k).append (of_paced (paced_memberLines (c := c) m k) rfl)
  | _ => cases he

end Emission

end StackC
