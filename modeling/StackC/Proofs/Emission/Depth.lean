import StackC.Proofs.Emission.Labels

namespace StackC

namespace Emission

open Assembly

/-- The slots that a line adds, where it moves the stack pointer by whole slots or not at all. -/
def slotShift? : Line → Option Int
  | .instr (.push _) => some 1
  | .instr (.pop r) => if r = .rsp then none else some (-1)
  | .instr (.subImm k .rsp) => if k % 8 = 0 then some (k / 8) else none
  | .instr (.addImm k .rsp) => if k % 8 = 0 then some (-(k / 8)) else none
  | .instr (.movImm _ _ r) | .instr (.movAbs _ r) | .instr (.mov _ r) | .instr (.load _ _ r)
  | .instr (.leaFrame _ r) | .instr (.leaSymbol _ r) | .instr (.arith _ _ r)
  | .instr (.addImm _ r) | .instr (.subImm _ r) | .instr (.extend _ r) | .instr (.extendFlag r)
  | .instr (.setFlag _ r) => if r = .rsp then none else some 0
  | .instr .ret => none
  | _ => some 0

def target? : Line → Option Label
  | .instr (.jump l) | .instr (.jumpIf _ l) => some l
  | _ => none

/-- Whether the next line is never run after this one. -/
def isJump : Line → Bool
  | .instr (.jump _) => true
  | _ => false

def isCall : Line → Bool
  | .instr (.call _ _) => true
  | _ => false

/-- Lines with the slots in use before each of them, from `d` before the first to the last number
behind all of them. A jump goes only where `S` allows with the slots then in use. -/
inductive Flow (S : Label → Nat → Prop) : Nat → List (Line × Nat) → Nat → Prop where
  | nil {d} : Flow S d [] d
  | line {x : Line} {d e f : Nat} {zs : List (Line × Nat)} {k : Int} (hk : slotShift? x = some k)
      (he : (e : Int) = d + k) (hs : ∀ t, target? x = some t → S t d)
      (hc : isCall x = true → d % 2 = 0) (h : Flow S e zs f) : Flow S d ((x, d) :: zs) f
  | leave {t d e f zs} (hs : S t d) (h : Flow S e zs f) :
      Flow S d ((.instr (.jump t), d) :: zs) f

namespace Flow

variable {S T : Label → Nat → Prop} {d e f : Nat} {zs ys : List (Line × Nat)}

theorem mono (h : Flow S d zs e) (hst : ∀ t k, S t k → T t k) : Flow T d zs e := by
  induction h with
  | nil => exact .nil
  | line hk he hs hc h ih => exact .line hk he (fun t ht => hst t _ (hs t ht)) hc ih
  | leave hs h ih => exact .leave (hst _ _ hs) ih

/-- Numbers that agree where two runs of lines meet agree along both. -/
theorem append (hz : Flow S d zs e) (hy : Flow S e ys f) : Flow S d (zs ++ ys) f := by
  induction hz with
  | nil => exact hy
  | line hk he hs hc h ih => exact .line hk he hs hc (ih hy)
  | leave hs h ih => exact .leave hs (ih hy)

theorem push {r : Reg} (h : Flow S (d + 1) zs e) : Flow S d ((.instr (.push r), d) :: zs) e :=
  .line rfl (by omega) nofun nofun h

theorem pop {r : Reg} (hr : r ≠ .rsp) (h : Flow S d zs e) :
    Flow S (d + 1) ((.instr (.pop r), d + 1) :: zs) e :=
  .line (if_neg hr) (by omega) nofun nofun h

/-- A line that leaves the stack alone and is neither a jump nor a call. -/
theorem still {x : Line} (hk : slotShift? x = some 0) (ht : target? x = none)
    (hc : isCall x = false) (h : Flow S d zs e) : Flow S d ((x, d) :: zs) e :=
  .line hk (by omega) (by simp [ht]) (by simp [hc]) h

theorem branch {cond : Cond} {t : Label} (hs : S t d) (h : Flow S d zs e) :
    Flow S d ((.instr (.jumpIf cond t), d) :: zs) e :=
  .line rfl (by omega) (fun u hu => by cases hu; exact hs) nofun h

end Flow

def tested (cond : Cond) (target : Label) (d : Nat) : List (Line × Nat) :=
  [(.instr (.pop .rax), d + 1), (.instr (.cmpZero .rax), d), (.instr (.jumpIf cond target), d)]

@[simp] theorem map_tested (cond : Cond) (target : Label) (d : Nat) :
    (tested cond target d).map Prod.fst = testLines cond target := rfl

/-- A test takes the slot of the value, and its jump is made behind that. -/
theorem flow_tested {S : Label → Nat → Prop} {cond : Cond} {t : Label} {d : Nat} (hs : S t d) :
    Flow S (d + 1) (tested cond t d) d :=
  .pop (by decide) (.still rfl rfl rfl (.branch hs .nil))

/-- Where annotated code may jump to with `k` slots in use: to the end of the function, to a label
of its own, or to a target of the loop around it. -/
def Near (c : Context) (zs : List (Line × Nat)) (t : Label) (k : Nat) : Prop :=
  t = .functionEnd c.name ∨ (.label t, k) ∈ zs ∨
    ∃ x ∈ c.loops.head?, (t = x.finish ∨ t = x.again) ∧ x.depth = k

/-- What is near to some lines is near to more lines. -/
theorem Near.mono {c : Context} {zs ys : List (Line × Nat)} {t : Label} {k : Nat}
    (h : Near c zs t k) (hs : ∀ z ∈ zs, z ∈ ys) : Near c ys t k := by
  rcases h with h | h | h
  · exact Or.inl h
  · exact Or.inr (Or.inl (hs _ h))
  · exact Or.inr (Or.inr h)

theorem Near.own {c : Context} {zs : List (Line × Nat)} {t : Label} {k : Nat}
    (h : (.label t, k) ∈ zs) : Near c zs t k :=
  Or.inr (Or.inl h)

/-- The labels of a loop are defined around its body, at the depth of the loop. -/
theorem Near.of_loop {c : Context} {n d : Nat} {zs ys : List (Line × Nat)} {t : Label} {k : Nat}
    (h : Near (c.inLoop n d) zs t k) (hs : ∀ z ∈ zs, z ∈ ys)
    (hf : (.label (.numbered .finish n), d) ∈ ys) (ha : (.label (.numbered .again n), d) ∈ ys) :
    Near c ys t k := by
  rcases h with h | h | ⟨x, hx, h, hk⟩
  · exact Or.inl h
  · exact Or.inr (Or.inl (hs _ h))
  · cases hx
    subst hk
    rcases h with rfl | rfl
    · exact Or.inr (Or.inl hf)
    · exact Or.inr (Or.inl ha)

def Paced (c : Context) (d : Nat) (ls : List Line) (e : Nat) : Prop :=
  ∃ zs, zs.map Prod.fst = ls ∧ Flow (Near c zs) d zs e

namespace Paced

variable {c : Context} {d e f : Nat} {as bs ls : List Line}

theorem nil : Paced c d [] d := ⟨[], rfl, .nil⟩

/-- Lines that lead from depth to depth are composed like steps. -/
theorem append (ha : Paced c d as e) (hb : Paced c e bs f) : Paced c d (as ++ bs) f := by
  obtain ⟨zs, rfl, hz⟩ := ha
  obtain ⟨ys, rfl, hy⟩ := hb
  refine ⟨zs ++ ys, by simp, (hz.mono fun t k h => ?_).append (hy.mono fun t k h => ?_)⟩
  · exact h.mono fun z hz => List.mem_append_left ys hz
  · exact h.mono fun z hz => List.mem_append_right zs hz

/-- A line that is no jump. -/
theorem line {x : Line} {k : Int} (hk : slotShift? x = some k) (he : (e : Int) = d + k)
    (ht : target? x = none) (hc : isCall x = true → d % 2 = 0) (h : Paced c e ls f) :
    Paced c d (x :: ls) f := by
  have hx : Paced c d [x] e := ⟨[(x, d)], rfl, .line hk he (by simp [ht]) hc .nil⟩
  exact hx.append h

theorem push {r : Reg} (h : Paced c (d + 1) ls e) : Paced c d (.instr (.push r) :: ls) e :=
  h.line rfl (by omega) rfl nofun

theorem pop {r : Reg} (hr : r ≠ .rsp) (h : Paced c d ls e) :
    Paced c (d + 1) (.instr (.pop r) :: ls) e :=
  h.line (if_neg hr) (by omega) rfl nofun

theorem still {x : Line} (hk : slotShift? x = some 0) (ht : target? x = none)
    (hc : isCall x = false) (h : Paced c d ls e) : Paced c d (x :: ls) e :=
  h.line hk (by omega) ht (by simp [hc])

/-- Behind a jump the slots in use are those of the code that comes next. -/
theorem leave {t : Label} (hs : Near c [] t d) (h : Paced c e ls f) :
    Paced c d (.instr (.jump t) :: ls) f := by
  have hx : Paced c d [.instr (.jump t)] e :=
    ⟨[(_, d)], rfl, .leave (hs.mono (by simp)) .nil⟩
  exact hx.append h

end Paced

theorem paced_lea {c : Context} {id : VarId} {lea : Instr} {d : Nat} (h : Locates c id lea) :
    Paced c d [.instr lea, .instr (.push .rax)] (d + 1) := by
  cases h <;> exact .still rfl rfl rfl (.push .nil)

theorem paced_literal {c : Context} (v : Int64) (d : Nat) :
    Paced c d [.instr (literal v), .instr (.push .rax)] (d + 1) := by
  unfold literal
  split <;> exact .still rfl rfl rfl (.push .nil)

/-- A load replaces the address by the value. -/
theorem paced_loads {c : Context} {t : CType} {ls : List Line} {d : Nat} (h : Loads t ls) :
    Paced c (d + 1) ls (d + 1) := by
  cases h with
  | aggregate ht => exact .nil
  | scalar ht hw => exact .pop (by decide) (.still rfl rfl rfl (.push .nil))

theorem paced_memberLines {c : Context} (m : Member CType) (d : Nat) :
    Paced c (d + 1) (memberLines m) (d + 1) :=
  .pop (by decide) (.still rfl rfl rfl (.push .nil))

theorem paced_operation {c : Context} (op : BinaryOp) (d : Nat) :
    Paced c d (operation op).lines d := by
  cases op <;> first
    | exact .nil
    | exact .still rfl rfl rfl .nil
    | exact .still rfl rfl rfl (.still rfl rfl rfl .nil)
    | exact .still rfl rfl rfl (.still rfl rfl rfl (.still rfl rfl rfl .nil))

/-- Taking the arguments gives back one slot for each. -/
theorem paced_popLines {c : Context} (rs : List Reg) (hrs : .rsp ∉ rs) (d : Nat) :
    Paced c (d + rs.length) (popLines rs) d := by
  induction rs generalizing d with
  | nil => exact .nil
  | cons r rs ih =>
    obtain ⟨hr, hrs⟩ := not_or.mp (mt List.mem_cons.mpr hrs)
    have hl : popLines (r :: rs) = popLines rs ++ [.instr (.pop r)] := by simp [popLines]
    have hd : d + (r :: rs).length = d + 1 + rs.length := by simp only [List.length_cons]; omega
    rw [hl, hd]
    exact (ih hrs (d + 1)).append (.pop (Ne.symm hr) .nil)

/-- Around a call one more slot is set aside if the number in use is odd. -/
theorem paced_callLines {c : Context} (name : String) (count d : Nat) :
    Paced c d (callLines name count d) d := by
  unfold callLines
  split
  · refine .line (k := 1) (e := d + 1) rfl (by omega) rfl nofun (.still rfl rfl rfl ?_)
    refine .line (k := 0) (e := d + 1) rfl (by omega) rfl (fun _ => by omega) ?_
    exact .line (k := -1) (e := d) rfl (by omega) rfl nofun .nil
  · refine .still rfl rfl rfl (.line (k := 0) (e := d) rfl (by omega) rfl (fun _ => by omega) .nil)

theorem paced_extendResult {c : Context} (t : CType) (d : Nat) :
    Paced c d (extendResult t).lines d := by
  unfold extendResult
  split
  · split
    all_goals first
      | exact .nil
      | exact .still rfl rfl rfl .nil
  · exact .nil

/-- Dropping slots leads to the depth of the target. -/
theorem paced_dropLines {c : Context} {d e : Nat} (h : e ≤ d) :
    Paced c d (dropLines (d - e)) e := by
  unfold dropLines
  split
  · refine .line (k := -((d - e : Nat) : Int)) ?_ (by omega) rfl nofun .nil
    have hm : (d - e) * 8 % 8 = 0 := Nat.mul_mod_left _ 8
    have hq : (((d - e) * 8 : Nat) : Int) / 8 = (d - e : Nat) := by omega
    simp only [slotShift?, hm, if_true, hq]
  · obtain rfl : d = e := by omega
    exact .nil

/-- The emitted lines of a task leave exactly the slots of its results. -/
theorem emits_paced {c : Context} {task : Task} {d n n' : Nat} {ls : List Line}
    (h : Emits c task d n ls n') : Paced c d ls (d + task.slots) := by
  induction h with
  | num => exact paced_literal _ _
  | var hv ht hl => exact (paced_lea hv).append (paced_loads hl)
  | deref he ht hl ih => exact ih.append (paced_loads hl)
  | member hb ht hl ih => exact ih.append ((paced_memberLines _ _).append (paced_loads hl))
  | addr he ih => exact ih
  | assign hl hr ht hw ihl ihr =>
    exact ihl.append (ihr.append (.pop (by decide) (.pop (by decide) (.still rfl rfl rfl
      (.push .nil)))))
  | @logical c i op l r a b d n n₁ n₂ hop hl hr ihl ihr =>
    obtain ⟨za, rfl, ha⟩ := ihl
    obtain ⟨zb, rfl, hb⟩ := ihr
    let short := Label.numbered .short (n + 1)
    let finish := Label.numbered .finish (n + 1)
    refine ⟨za ++ (tested (decided op).1 short d ++ (zb ++ (tested (decided op).1 short d ++
      [(.instr (truth !(decided op).2), d), (.instr (.jump finish), d), (.label short, d),
        (.instr (truth (decided op).2), d), (.label finish, d), (.instr (.push .rax), d)]))),
      by simp [logicalLines, short, finish], ?_⟩
    refine (ha.mono fun t k h => h.mono ?_).append ((flow_tested (.own ?_)).append
      ((hb.mono fun t k h => h.mono ?_).append ((flow_tested (.own ?_)).append
        (.still rfl rfl rfl (.leave (.own ?_) (.still rfl rfl rfl (.still rfl rfl rfl
          (.still rfl rfl rfl (.push .nil)))))))))
    all_goals simp +contextual
  | binary hop hl hr ihl ihr =>
    exact ihl.append (ihr.append (.pop (by decide) (.pop (by decide)
      ((paced_operation _ _).append (.push .nil)))))
  | not he ih =>
    exact ih.append (.pop (by decide) (.still rfl rfl rfl (.still rfl rfl rfl
      (.still rfl rfl rfl (.push .nil)))))
  | @ternary c i e x y a b b' d n n₁ n₂ n₃ he hx hy ihe ihx ihy =>
    obtain ⟨za, rfl, ha⟩ := ihe
    obtain ⟨zb, rfl, hb⟩ := ihx
    obtain ⟨zb', rfl, hb'⟩ := ihy
    let other := Label.numbered .other (n + 1)
    let finish := Label.numbered .finish (n + 1)
    refine ⟨za ++ (tested .equal other d ++ (zb ++ ((.instr (.pop .rax), d + 1) ::
      (.instr (.jump finish), d) :: (.label other, d) :: (zb' ++ [(.instr (.pop .rax), d + 1),
        (.label finish, d), (.instr (.push .rax), d)])))), by simp [other, finish], ?_⟩
    refine (ha.mono fun t k h => h.mono ?_).append ((flow_tested (.own ?_)).append
      ((hb.mono fun t k h => h.mono ?_).append (.pop (by decide) (.leave (.own ?_)
        (.still rfl rfl rfl ((hb'.mono fun t k h => h.mono ?_).append (.pop (by decide)
          (.still rfl rfl rfl (.push .nil)))))))))
    all_goals simp +contextual
  | @call c i name args t a d n n' ht hn ha ih =>
    have hl : (argumentRegs.take args.length).length = args.length := by
      rw [List.length_take]
      omega
    have hm : .rsp ∉ argumentRegs.take args.length :=
      fun hr => absurd (List.mem_of_mem_take hr) (by decide)
    have hp := paced_popLines (c := c) _ hm d
    rw [hl] at hp
    exact ih.append (hp.append ((paced_callLines _ _ _).append
      ((paced_extendResult _ _).append (.push .nil))))
  | stmtExpr h ih => exact ih
  | varAddress hv => exact paced_lea hv
  | derefAddress he ih => exact ih
  | memberAddress hb ih => exact ih.append (paced_memberLines _ _)
  | noArguments => exact .nil
  | @argument c e es a b d n n₁ n₂ he hs ihe ihs =>
    have hd : d + 1 + es.length = d + (e :: es).length := by
      rw [List.length_cons]
      omega
    exact ihe.append (hd ▸ ihs)
  | lastItem he ih => exact ih
  | item hx hs ihx ihs => exact ihx.append ihs
  | exprStmt he ih => exact ih.append (.pop (by decide) .nil)
  | retVoid => exact .leave (Or.inl rfl) .nil
  | ret he ih => exact ih.append (.pop (by decide) (.leave (Or.inl rfl) .nil))
  | block h ih => exact ih
  | @ifElse c i e x y a b b' d n n₁ n₂ n₃ he hx hy ihe ihx ihy =>
    obtain ⟨za, rfl, ha⟩ := ihe
    obtain ⟨zb, rfl, hb⟩ := ihx
    obtain ⟨zb', rfl, hb'⟩ := ihy
    let other := Label.numbered .other (n + 1)
    let finish := Label.numbered .finish (n + 1)
    refine ⟨za ++ (tested .equal other d ++ (zb ++ ((.instr (.jump finish), d) ::
      (.label other, d) :: (zb' ++ [(.label finish, d)])))), by simp [other, finish], ?_⟩
    refine (ha.mono fun t k h => h.mono ?_).append ((flow_tested (.own ?_)).append
      ((hb.mono fun t k h => h.mono ?_).append (.leave (.own ?_)
        (.still rfl rfl rfl ((hb'.mono fun t k h => h.mono ?_).append
          (.still rfl rfl rfl .nil))))))
    all_goals simp +contextual [Task.slots]
  | @whileLoop c i e x a b d n n₁ n₂ he hx ihe ihx =>
    obtain ⟨za, rfl, ha⟩ := ihe
    obtain ⟨zb, rfl, hb⟩ := ihx
    let start := Label.numbered .start (n + 1)
    let again := Label.numbered .again (n + 1)
    let finish := Label.numbered .finish (n + 1)
    refine ⟨(.label start, d) :: (za ++ (tested .equal finish d ++ (zb ++ [(.label again, d),
      (.instr (.jump start), d), (.label finish, d)]))), by simp [start, again, finish], ?_⟩
    refine .still rfl rfl rfl ((ha.mono fun t k h => h.mono ?_).append
      ((flow_tested (.own ?_)).append ((hb.mono fun t k h => h.of_loop ?_ ?_ ?_).append
        (.still rfl rfl rfl (.leave (.own ?_) (.still rfl rfl rfl .nil))))))
    all_goals simp +contextual [Task.slots, again, finish]
  | @forLoop c i init e update x f a b u d n n₁ n₂ n₃ n₄ hf he hx hu ihf ihe ihx ihu =>
    obtain ⟨zf, rfl, gf⟩ := ihf
    obtain ⟨za, rfl, ha⟩ := ihe
    obtain ⟨zb, rfl, hb⟩ := ihx
    obtain ⟨zu, rfl, gu⟩ := ihu
    let start := Label.numbered .start (n + 1)
    let again := Label.numbered .again (n + 1)
    let finish := Label.numbered .finish (n + 1)
    refine ⟨zf ++ ((.label start, d) :: (za ++ (tested .equal finish d ++ (zb ++
      ((.label again, d) :: (zu ++ [(.instr (.jump start), d), (.label finish, d)])))))),
      by simp [start, again, finish], ?_⟩
    refine (gf.mono fun t k h => h.mono ?_).append (.still rfl rfl rfl
      ((ha.mono fun t k h => h.mono ?_).append ((flow_tested (.own ?_)).append
        ((hb.mono fun t k h => h.of_loop ?_ ?_ ?_).append (.still rfl rfl rfl
          ((gu.mono fun t k h => h.mono ?_).append (.leave (.own ?_)
            (.still rfl rfl rfl .nil))))))))
    all_goals simp +contextual [Task.slots, again, finish]
  | breakLoop hc hd =>
    exact (paced_dropLines hd).append
      (.leave (Or.inr (Or.inr ⟨_, by rw [hc]; rfl, .inl rfl, rfl⟩)) .nil)
  | continueLoop hc hd =>
    exact (paced_dropLines hd).append
      (.leave (Or.inr (Or.inr ⟨_, by rw [hc]; rfl, .inr rfl, rfl⟩)) .nil)
  | empty => exact .nil
  | noStatements => exact .nil
  | statement hx hs ihx ihs => exact ihx.append ihs
  | absent => exact .nil
  | present hx ih => exact ih

end Emission

end StackC
