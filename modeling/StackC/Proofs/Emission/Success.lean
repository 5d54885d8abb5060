import StackC.Proofs.Emission.Shape

/-!
An emission succeeds exactly where `Emits` tells its lines, and then leaves as many slots as its
task says. The two halves are `emits_of_ok` and `emits_gives`.
-/

namespace StackC

namespace Emission

open Assembly

/-- Two steps succeed exactly if the first does and the second goes on from there. -/
theorem bind_eq_ok {α β : Type} {x : Emit α} {f : α → Emit β} {k : Counters} {r : β × Counters} :
    (x >>= f) k = .ok r ↔ ∃ a k₁, x k = .ok (a, k₁) ∧ f a k₁ = .ok r := by
  change (x k >>= fun p => f p.1 p.2) = .ok r ↔ _
  rcases x k with e | ⟨a, k₁⟩
  · simp [bind, Except.bind]
  · constructor
    · exact fun h => ⟨a, k₁, rfl, h⟩
    · rintro ⟨_, _, h, hr⟩
      cases h
      exact hr

theorem pure_eq_ok {α : Type} {a b : α} {k k' : Counters} :
    (pure a : Emit α) k = .ok (b, k') ↔ b = a ∧ k' = k := by
  constructor
  · intro h
    cases h
    exact ⟨rfl, rfl⟩
  · rintro ⟨rfl, rfl⟩
    rfl

theorem throw_ne_ok {α : Type} {e : EmissionFault} {k : Counters} {r : α × Counters} :
    (throw e : Emit α) k ≠ .ok r := nofun

theorem get_eq_ok {k k' k₁ : Counters} :
    (get : Emit Counters) k = .ok (k₁, k') ↔ k₁ = k ∧ k' = k := pure_eq_ok

theorem freshLabel_eq_ok {k k' : Counters} {m : Nat} :
    freshLabel k = .ok (m, k') ↔ m = k.labels + 1 ∧ k' = ⟨k.depth, k.labels + 1⟩ := by
  constructor
  · intro h
    cases h
    exact ⟨rfl, rfl⟩
  · rintro ⟨rfl, rfl⟩
    rfl

theorem push_eq_ok {r : Reg} {k k' : Counters} {code : Code} :
    push r k = .ok (code, k') ↔ code = instr (.push r) ∧ k' = ⟨k.depth + 1, k.labels⟩ := by
  constructor
  · intro h
    cases h
    exact ⟨rfl, rfl⟩
  · rintro ⟨rfl, rfl⟩
    rfl

theorem pop_eq_ok {r : Reg} {d n : Nat} {k' : Counters} {code : Code} :
    pop r ⟨d + 1, n⟩ = .ok (code, k') ↔ code = instr (.pop r) ∧ k' = ⟨d, n⟩ := by
  constructor
  · intro h
    cases h
    exact ⟨rfl, rfl⟩
  · rintro ⟨rfl, rfl⟩
    rfl

theorem typeOf_eq_ok {x : Node} {t : CType} {k k' : Counters} :
    typeOf x k = .ok (t, k') ↔ x.type? = some t ∧ k' = k := by
  unfold typeOf
  cases x.type? with
  | none => simp [throw_ne_ok]
  | some u =>
    simp only [pure_eq_ok, Option.some.injEq]
    exact and_congr_left' eq_comm


@[simp] theorem lines_instr (i : Instr) : (instr i).lines = [.instr i] := rfl

@[simp] theorem lines_label (role : LabelRole) (n : Nat) :
    (label role n).lines = [.label (.numbered role n)] := rfl

/-- The address of a variable is left in a new slot. -/
theorem varAddress_ok {c : Context} {id : VarId} {k k' : Counters} {code : Code}
    (h : varAddress c id k = .ok (code, k')) :
    ∃ lea, Locates c id lea ∧ code.lines = [.instr lea, .instr (.push .rax)] ∧
      k' = ⟨k.depth + 1, k.labels⟩ := by
  simp only [varAddress, bind_eq_ok, var] at h
  obtain ⟨v, k₁, hv, h⟩ := h
  cases hc : c.vars[id]? with
  | none => simp [hc, throw_ne_ok] at hv
  | some u =>
    simp only [hc, pure_eq_ok] at hv
    obtain ⟨rfl, rfl⟩ := hv
    cases hl : v.isLocal with
    | true =>
      simp only [hl, if_true, bind_eq_ok, slot] at h
      obtain ⟨o, k₂, ho, _, _, hp, h⟩ := h
      cases hf : c.frame.offset? id with
      | none => simp [hf, throw_ne_ok] at ho
      | some m =>
        simp only [hf, pure_eq_ok] at ho
        obtain ⟨rfl, rfl⟩ := ho
        obtain ⟨rfl, rfl⟩ := push_eq_ok.mp hp
        obtain ⟨rfl, rfl⟩ := pure_eq_ok.mp h
        exact ⟨_, .onFrame hc hl hf, by simp, rfl⟩
    | false =>
      simp only [hl, Bool.false_eq_true, if_false, bind_eq_ok] at h
      obtain ⟨_, _, hp, h⟩ := h
      obtain ⟨rfl, rfl⟩ := push_eq_ok.mp hp
      obtain ⟨rfl, rfl⟩ := pure_eq_ok.mp h
      exact ⟨_, .inData hc hl, by simp, rfl⟩

theorem memberAddress_ok {m : Member CType} {d n : Nat} {k' : Counters} {code : Code}
    (h : memberAddress m ⟨d + 1, n⟩ = .ok (code, k')) :
    code.lines = memberLines m ∧ k' = ⟨d + 1, n⟩ := by
  cases h
  exact ⟨by simp [memberLines], rfl⟩

/-- A load gives the lines of its type and uses no further slot. -/
theorem load_ok {t : CType} {d n : Nat} {k' : Counters} {code : Code}
    (h : load t ⟨d + 1, n⟩ = .ok (code, k')) : Loads t code.lines ∧ k' = ⟨d + 1, n⟩ := by
  unfold load at h
  cases ht : t.isArray || t.isStruct with
  | true =>
    simp only [ht, if_true, pure_eq_ok] at h
    obtain ⟨rfl, rfl⟩ := h
    exact ⟨.aggregate ht, rfl⟩
  | false =>
    simp only [ht, Bool.false_eq_true, if_false] at h
    cases hw : Width.ofBytes? t.size with
    | none => simp [hw, throw_ne_ok] at h
    | some w =>
      rw [hw] at h
      cases h
      exact ⟨by simpa using Loads.scalar ht hw, rfl⟩

/-- A store takes two slots, leaves one, and has the width of its type. -/
theorem store_ok {t : CType} {d n : Nat} {k' : Counters} {code : Code}
    (h : store t ⟨d + 2, n⟩ = .ok (code, k')) :
    ∃ w, Width.ofBytes? t.size = some w ∧
      code.lines = [.instr (.pop .rdi), .instr (.pop .rax), .instr (.store w .rdi .rax),
        .instr (.push .rdi)] ∧ k' = ⟨d + 1, n⟩ := by
  unfold store at h
  cases hw : Width.ofBytes? t.size with
  | none => simp [hw, throw_ne_ok] at h
  | some w =>
    rw [hw] at h
    cases h
    exact ⟨w, rfl, by simp, rfl⟩

theorem binary_ok {op : BinaryOp} {d n : Nat} {k' : Counters} {code : Code}
    (h : binary op ⟨d + 2, n⟩ = .ok (code, k')) :
    code.lines = .instr (.pop .rdi) :: .instr (.pop .rax) ::
      ((operation op).lines ++ [.instr (.push .rax)]) ∧ k' = ⟨d + 1, n⟩ := by
  cases h
  exact ⟨by simp, rfl⟩

theorem negation_ok {d n : Nat} {k' : Counters} {code : Code}
    (h : negation ⟨d + 1, n⟩ = .ok (code, k')) :
    code.lines = [.instr (.pop .rax), .instr (.cmpZero .rax), .instr (.setFlag .equal .rax),
      .instr (.extendFlag .rax), .instr (.push .rax)] ∧ k' = ⟨d + 1, n⟩ := by
  cases h
  exact ⟨by simp, rfl⟩

theorem branch_ok {cond : Cond} {l : Label} {d n : Nat} {k' : Counters} {code : Code}
    (h : branch cond l ⟨d + 1, n⟩ = .ok (code, k')) :
    code.lines = testLines cond l ∧ k' = ⟨d, n⟩ := by
  cases h
  exact ⟨by simp [testLines], rfl⟩

theorem logicalEnd_ok {result : Bool} {m : Nat} {k k' : Counters} {code : Code}
    (h : logicalEnd result m k = .ok (code, k')) :
    code.lines = logicalLines result m ∧ k' = ⟨k.depth + 1, k.labels⟩ := by
  cases h
  exact ⟨by simp [logicalLines], rfl⟩

/-- Taking the values of registers gives back one slot for each. -/
theorem popAll_ok {rs : List Reg} {d n : Nat} {k' : Counters} {code : Code}
    (h : popAll rs ⟨d + rs.length, n⟩ = .ok (code, k')) :
    code.lines = popLines rs ∧ k' = ⟨d, n⟩ := by
  induction rs generalizing d code k' with
  | nil =>
    cases h
    exact ⟨rfl, rfl⟩
  | cons r rs ih =>
    simp only [popAll, bind_eq_ok] at h
    obtain ⟨a, k₁, ha, b, k₂, hb, h⟩ := h
    have hd : d + (r :: rs).length = d + 1 + rs.length := by simp only [List.length_cons]; omega
    rw [hd] at ha
    obtain ⟨hla, rfl⟩ := ih ha
    obtain ⟨rfl, rfl⟩ := pop_eq_ok.mp hb
    obtain ⟨rfl, rfl⟩ := pure_eq_ok.mp h
    exact ⟨by simp [hla, popLines], rfl⟩

/-- A call takes the slots of its arguments and leaves its result in one. -/
theorem callFunction_ok {name : String} {count d n : Nat} {t : CType} {k' : Counters} {code : Code}
    (hc : count ≤ argumentRegs.length)
    (h : callFunction name count t ⟨d + count, n⟩ = .ok (code, k')) :
    code.lines = popLines (argumentRegs.take count) ++
      (callLines name count d ++ ((extendResult t).lines ++ [.instr (.push .rax)])) ∧
      k' = ⟨d + 1, n⟩ := by
  simp only [callFunction, bind_eq_ok] at h
  obtain ⟨a, k₁, ha, k₂, k₃, hg, b, k₄, hb, h⟩ := h
  have hl : d + count = d + (argumentRegs.take count).length := by
    rw [List.length_take, Nat.min_eq_left hc]
  rw [hl] at ha
  obtain ⟨hla, rfl⟩ := popAll_ok ha
  obtain ⟨rfl, rfl⟩ := get_eq_ok.mp hg
  obtain ⟨rfl, rfl⟩ := push_eq_ok.mp hb
  obtain ⟨rfl, rfl⟩ := pure_eq_ok.mp h
  refine ⟨?_, rfl⟩
  by_cases hd : d % 2 = 1 <;> simp [hla, callLines, hd]

/-- A jump out of a loop is accepted only if no slot is missing. -/
theorem jumpOut_ok {target : Label} {depth d n : Nat} {k' : Counters} {code : Code}
    (h : jumpOut target depth ⟨d, n⟩ = .ok (code, k')) :
    depth ≤ d ∧ code.lines = dropLines (d - depth) ++ [.instr (.jump target)] ∧ k' = ⟨d, n⟩ := by
  simp only [jumpOut, bind_eq_ok] at h
  obtain ⟨k₁, k₂, hg, h⟩ := h
  obtain ⟨rfl, rfl⟩ := get_eq_ok.mp hg
  by_cases hd : d < depth
  · simp [hd, throw_ne_ok] at h
  · simp only [hd, if_false, pure_eq_ok] at h
    obtain ⟨rfl, rfl⟩ := h
    refine ⟨Nat.le_of_not_lt hd, ?_, rfl⟩
    by_cases hs : depth < d
    · simp [dropLines, hs, Nat.sub_pos_of_lt hs]
    · simp [dropLines, hs, Nat.sub_eq_zero_of_le (Nat.le_of_not_lt hs)]

/-- The check behind a statement changes nothing. -/
theorem balanced_ok {p : Location} {body : Emit Code} {k k' : Counters} {code : Code}
    (h : balanced p body k = .ok (code, k')) : body k = .ok (code, k') := by
  simp only [balanced, bind_eq_ok] at h
  obtain ⟨k₁, k₂, hg, a, k₃, ha, k₄, k₅, hg', h⟩ := h
  obtain ⟨rfl, rfl⟩ := get_eq_ok.mp hg
  obtain ⟨rfl, rfl⟩ := get_eq_ok.mp hg'
  split at h
  · exact absurd h throw_ne_ok
  · obtain ⟨rfl, rfl⟩ := pure_eq_ok.mp h
    exact ha

mutual

/-- The code of an expression is told by `Emits`, and it leaves one slot. -/
theorem value_emits {c : Context} : ∀ {x : Node} {d n : Nat} {code : Code} {k' : Counters},
    value c x ⟨d, n⟩ = .ok (code, k') →
      Emits c (.value x) d n code.lines k'.labels ∧ k'.depth = d + 1
  | .num i v, d, n, code, k', h => by
    cases h
    exact ⟨by simpa using Emits.num, rfl⟩
  | .var i id, d, n, code, k', h => by
    simp only [value, bind_eq_ok] at h
    obtain ⟨a, k₁, ha, t, k₂, ht, b, k₃, hb, h⟩ := h
    obtain ⟨lea, hv, hla, rfl⟩ := varAddress_ok ha
    obtain ⟨hty, rfl⟩ := typeOf_eq_ok.mp ht
    obtain ⟨hld, rfl⟩ := load_ok hb
    obtain ⟨rfl, rfl⟩ := pure_eq_ok.mp h
    exact ⟨by simpa [hla] using Emits.var hv (show i.type = some t from hty) hld, rfl⟩
  | .deref i e, d, n, code, k', h => by
    simp only [value, bind_eq_ok] at h
    obtain ⟨a, k₁, ha, t, k₂, ht, b, k₃, hb, h⟩ := h
    obtain ⟨he, hd⟩ := value_emits ha
    obtain ⟨hty, rfl⟩ := typeOf_eq_ok.mp ht
    obtain ⟨d₁, n₁⟩ := k₂
    obtain rfl : d₁ = d + 1 := hd
    obtain ⟨hld, rfl⟩ := load_ok hb
    obtain ⟨rfl, rfl⟩ := pure_eq_ok.mp h
    exact ⟨by simpa using Emits.deref he (show i.type = some t from hty) hld, rfl⟩
  | .member i b name (some m), d, n, code, k', h => by
    simp only [value, bind_eq_ok] at h
    obtain ⟨a, ⟨d₁, n₁⟩, ha, b, k₂, hb, t, k₃, ht, l, k₄, hl, h⟩ := h
    obtain ⟨he, rfl⟩ := address_emits ha
    obtain ⟨hm, rfl⟩ := memberAddress_ok hb
    obtain ⟨hty, rfl⟩ := typeOf_eq_ok.mp ht
    obtain ⟨hld, rfl⟩ := load_ok hl
    obtain ⟨rfl, rfl⟩ := pure_eq_ok.mp h
    exact ⟨by simpa [hm] using Emits.member he (show i.type = some t from hty) hld, rfl⟩
  | .member i b name none, d, n, code, k', h => nomatch h
  | .addr i e, d, n, code, k', h => by
    obtain ⟨he, hd⟩ := address_emits h
    exact ⟨.addr he, hd⟩
  | .assign i l r, d, n, code, k', h => by
    simp only [value, bind_eq_ok] at h
    obtain ⟨a, ⟨d₁, n₁⟩, ha, b, ⟨d₂, n₂⟩, hb, t, k₃, ht, s, k₄, hs, h⟩ := h
    obtain ⟨hl, rfl⟩ := address_emits ha
    obtain ⟨hr, rfl⟩ := value_emits hb
    obtain ⟨hty, rfl⟩ := typeOf_eq_ok.mp ht
    obtain ⟨w, hw, hls, rfl⟩ := store_ok hs
    obtain ⟨rfl, rfl⟩ := pure_eq_ok.mp h
    exact ⟨by simpa [hls] using Emits.assign hl hr hty hw, rfl⟩
  | .binary i op l r, d, n, code, k', h => by
    unfold value at h
    split at h
    · next hop =>
      simp only [bind_eq_ok] at h
      obtain ⟨m, k₁, hm, a, ⟨d₁, n₁⟩, ha, t, k₂, ht, b, ⟨d₂, n₂⟩, hb, t', k₃, ht', e, k₄, he,
        h⟩ := h
      obtain ⟨rfl, rfl⟩ := freshLabel_eq_ok.mp hm
      obtain ⟨hl, rfl⟩ := value_emits ha
      obtain ⟨hlt, rfl⟩ := branch_ok ht
      obtain ⟨hr, rfl⟩ := value_emits hb
      obtain ⟨hlt', rfl⟩ := branch_ok ht'
      obtain ⟨hle, rfl⟩ := logicalEnd_ok he
      obtain ⟨rfl, rfl⟩ := pure_eq_ok.mp h
      exact ⟨by simpa [hlt, hlt', hle] using Emits.logical hop hl hr, rfl⟩
    · next hop =>
      simp only [bind_eq_ok] at h
      obtain ⟨a, ⟨d₁, n₁⟩, ha, b, ⟨d₂, n₂⟩, hb, o, k₃, ho, h⟩ := h
      obtain ⟨hl, rfl⟩ := value_emits ha
      obtain ⟨hr, rfl⟩ := value_emits hb
      obtain ⟨hlo, rfl⟩ := binary_ok ho
      obtain ⟨rfl, rfl⟩ := pure_eq_ok.mp h
      exact ⟨by simpa [hlo] using Emits.binary hop hl hr, rfl⟩
  | .not i e, d, n, code, k', h => by
    simp only [value, bind_eq_ok] at h
    obtain ⟨a, ⟨d₁, n₁⟩, ha, b, k₂, hb, h⟩ := h
    obtain ⟨he, rfl⟩ := value_emits ha
    obtain ⟨hlb, rfl⟩ := negation_ok hb
    obtain ⟨rfl, rfl⟩ := pure_eq_ok.mp h
    exact ⟨by simpa [hlb] using Emits.not he, rfl⟩
  | .ternary i e x y, d, n, code, k', h => by
    simp only [value, bind_eq_ok] at h
    obtain ⟨m, k₁, hm, a, ⟨d₁, n₁⟩, ha, t, k₂, ht, b, ⟨d₂, n₂⟩, hb, p, k₃, hp,
      b', ⟨d₄, n₄⟩, hb', p', k₅, hp', q, k₆, hq, h⟩ := h
    obtain ⟨rfl, rfl⟩ := freshLabel_eq_ok.mp hm
    obtain ⟨he, rfl⟩ := value_emits ha
    obtain ⟨hlt, rfl⟩ := branch_ok ht
    obtain ⟨hx, rfl⟩ := value_emits hb
    obtain ⟨rfl, rfl⟩ := pop_eq_ok.mp hp
    obtain ⟨hy, rfl⟩ := value_emits hb'
    obtain ⟨rfl, rfl⟩ := pop_eq_ok.mp hp'
    obtain ⟨rfl, rfl⟩ := push_eq_ok.mp hq
    obtain ⟨rfl, rfl⟩ := pure_eq_ok.mp h
    exact ⟨by simpa [hlt] using Emits.ternary he hx hy, rfl⟩
  | .call i name args, d, n, code, k', h => by
    simp only [value, bind_eq_ok] at h
    obtain ⟨t, k₁, ht, h⟩ := h
    obtain ⟨hty, rfl⟩ := typeOf_eq_ok.mp ht
    split at h
    · exact absurd h throw_ne_ok
    · next hn =>
      simp only [bind_eq_ok] at h
      obtain ⟨a, ⟨d₁, n₁⟩, ha, b, k₂, hb, h⟩ := h
      obtain ⟨hargs, rfl⟩ := arguments_emits ha
      obtain ⟨hlb, rfl⟩ := callFunction_ok (Nat.le_of_not_lt hn) hb
      obtain ⟨rfl, rfl⟩ := pure_eq_ok.mp h
      refine ⟨?_, rfl⟩
      simpa [hlb] using Emits.call (show i.type = some t from hty) (Nat.le_of_not_lt hn) hargs
  | .stmtExpr i items, d, n, code, k', h => by
    obtain ⟨hs, hd⟩ := statementValue_emits h
    exact ⟨.stmtExpr hs, hd⟩
  | .sizeof .., d, n, code, k', h | .exprStmt .., d, n, code, k', h | .ret .., d, n, code, k', h
  | .block .., d, n, code, k', h | .ifElse .., d, n, code, k', h
  | .whileLoop .., d, n, code, k', h | .forLoop .., d, n, code, k', h
  | .breakLoop .., d, n, code, k', h | .continueLoop .., d, n, code, k', h
  | .empty .., d, n, code, k', h => nomatch h
termination_by structural x => x

/-- So is the code of an address. -/
theorem address_emits {c : Context} : ∀ {x : Node} {d n : Nat} {code : Code} {k' : Counters},
    address c x ⟨d, n⟩ = .ok (code, k') →
      Emits c (.address x) d n code.lines k'.labels ∧ k'.depth = d + 1
  | .var i id, d, n, code, k', h => by
    obtain ⟨lea, hv, hla, rfl⟩ := varAddress_ok h
    exact ⟨by simpa [hla] using Emits.varAddress hv, rfl⟩
  | .deref i e, d, n, code, k', h => by
    obtain ⟨he, hd⟩ := value_emits h
    exact ⟨.derefAddress he, hd⟩
  | .member i b name (some m), d, n, code, k', h => by
    simp only [address, bind_eq_ok] at h
    obtain ⟨a, ⟨d₁, n₁⟩, ha, b, k₂, hb, h⟩ := h
    obtain ⟨he, rfl⟩ := address_emits ha
    obtain ⟨hm, rfl⟩ := memberAddress_ok hb
    obtain ⟨rfl, rfl⟩ := pure_eq_ok.mp h
    exact ⟨by simpa [hm] using Emits.memberAddress he, rfl⟩
  | .member i b name none, d, n, code, k', h => nomatch h
  | .num .., d, n, code, k', h | .binary .., d, n, code, k', h | .not .., d, n, code, k', h
  | .assign .., d, n, code, k', h | .ternary .., d, n, code, k', h | .addr .., d, n, code, k', h
  | .sizeof .., d, n, code, k', h | .call .., d, n, code, k', h | .stmtExpr .., d, n, code, k', h
  | .exprStmt .., d, n, code, k', h | .ret .., d, n, code, k', h | .block .., d, n, code, k', h
  | .ifElse .., d, n, code, k', h | .whileLoop .., d, n, code, k', h
  | .forLoop .., d, n, code, k', h | .breakLoop .., d, n, code, k', h
  | .continueLoop .., d, n, code, k', h | .empty .., d, n, code, k', h => nomatch h
termination_by structural x => x

/-- Arguments leave a slot each. -/
theorem arguments_emits {c : Context} :
    ∀ {xs : List Node} {d n : Nat} {code : Code} {k' : Counters},
      arguments c xs ⟨d, n⟩ = .ok (code, k') →
        Emits c (.arguments xs) d n code.lines k'.labels ∧ k'.depth = d + xs.length
  | [], d, n, code, k', h => by
    cases h
    exact ⟨.noArguments, rfl⟩
  | x :: xs, d, n, code, k', h => by
    simp only [arguments, bind_eq_ok] at h
    obtain ⟨a, ⟨d₁, n₁⟩, ha, b, k₂, hb, h⟩ := h
    obtain ⟨he, rfl⟩ := value_emits ha
    obtain ⟨hs, hd⟩ := arguments_emits hb
    obtain ⟨rfl, rfl⟩ := pure_eq_ok.mp h
    exact ⟨by simpa using Emits.argument he hs, by rw [hd, List.length_cons]; omega⟩
termination_by structural x => x

/-- The items of a statement expression leave one slot. -/
theorem statementValue_emits {c : Context} :
    ∀ {xs : List Node} {d n : Nat} {code : Code} {k' : Counters},
      statementValue c xs ⟨d, n⟩ = .ok (code, k') →
        Emits c (.statementValue xs) d n code.lines k'.labels ∧ k'.depth = d + 1
  | [], d, n, code, k', h => nomatch h
  | [.exprStmt i e], d, n, code, k', h => by
    obtain ⟨he, hd⟩ := value_emits (x := e) h
    exact ⟨.lastItem he, hd⟩
  | [.num ..], d, n, code, k', h | [.var ..], d, n, code, k', h | [.member ..], d, n, code, k', h
  | [.binary ..], d, n, code, k', h | [.not ..], d, n, code, k', h
  | [.assign ..], d, n, code, k', h | [.ternary ..], d, n, code, k', h
  | [.addr ..], d, n, code, k', h | [.deref ..], d, n, code, k', h
  | [.sizeof ..], d, n, code, k', h | [.call ..], d, n, code, k', h
  | [.stmtExpr ..], d, n, code, k', h | [.ret ..], d, n, code, k', h
  | [.block ..], d, n, code, k', h | [.ifElse ..], d, n, code, k', h
  | [.whileLoop ..], d, n, code, k', h | [.forLoop ..], d, n, code, k', h
  | [.breakLoop ..], d, n, code, k', h | [.continueLoop ..], d, n, code, k', h
  | [.empty ..], d, n, code, k', h => nomatch h
  | x :: y :: ys, d, n, code, k', h => by
    simp only [statementValue, bind_eq_ok] at h
    obtain ⟨a, ⟨d₁, n₁⟩, ha, b, k₂, hb, h⟩ := h
    obtain ⟨hx, rfl⟩ := statement_emits ha
    obtain ⟨hs, hd⟩ := statementValue_emits hb
    obtain ⟨rfl, rfl⟩ := pure_eq_ok.mp h
    exact ⟨by simpa using Emits.item hx hs, hd⟩
termination_by structural x => x

/-- The code of a statement is told by `Emits`, and it leaves no slot. -/
theorem statement_emits {c : Context} :
    ∀ {x : Node} {d n : Nat} {code : Code} {k' : Counters},
      statement c x ⟨d, n⟩ = .ok (code, k') →
        Emits c (.statement x) d n code.lines k'.labels ∧ k'.depth = d
  | .exprStmt i e, d, n, code, k', h => by
    unfold statement at h
    have h := balanced_ok h
    simp only [bind_eq_ok] at h
    obtain ⟨a, ⟨d₁, n₁⟩, ha, b, k₂, hb, h⟩ := h
    obtain ⟨he, rfl⟩ := value_emits ha
    obtain ⟨rfl, rfl⟩ := pop_eq_ok.mp hb
    obtain ⟨rfl, rfl⟩ := pure_eq_ok.mp h
    exact ⟨by simpa using Emits.exprStmt he, rfl⟩
  | .ret i none, d, n, code, k', h => by
    unfold statement at h
    have h := balanced_ok h
    obtain ⟨rfl, rfl⟩ := pure_eq_ok.mp h
    exact ⟨by simpa using Emits.retVoid, rfl⟩
  | .ret i (some e), d, n, code, k', h => by
    unfold statement at h
    have h := balanced_ok h
    simp only [bind_eq_ok] at h
    obtain ⟨a, ⟨d₁, n₁⟩, ha, b, k₂, hb, h⟩ := h
    obtain ⟨he, rfl⟩ := value_emits ha
    obtain ⟨rfl, rfl⟩ := pop_eq_ok.mp hb
    obtain ⟨rfl, rfl⟩ := pure_eq_ok.mp h
    exact ⟨by simpa using Emits.ret he, rfl⟩
  | .block i items, d, n, code, k', h => by
    unfold statement at h
    obtain ⟨hs, hd⟩ := statements_emits (balanced_ok h)
    exact ⟨.block hs, hd⟩
  | .ifElse i e x y, d, n, code, k', h => by
    unfold statement at h
    have h := balanced_ok h
    simp only [bind_eq_ok] at h
    obtain ⟨m, k₁, hm, a, ⟨d₁, n₁⟩, ha, t, k₂, ht, b, ⟨d₂, n₂⟩, hb, b', ⟨d₄, n₄⟩, hb', h⟩ := h
    obtain ⟨rfl, rfl⟩ := freshLabel_eq_ok.mp hm
    obtain ⟨he, rfl⟩ := value_emits ha
    obtain ⟨hlt, rfl⟩ := branch_ok ht
    obtain ⟨hx, rfl⟩ := statement_emits hb
    obtain ⟨hy, rfl⟩ := statement_emits hb'
    obtain ⟨rfl, rfl⟩ := pure_eq_ok.mp h
    exact ⟨by simpa [hlt] using Emits.ifElse he hx hy, rfl⟩
  | .whileLoop i e x, d, n, code, k', h => by
    unfold statement at h
    have h := balanced_ok h
    simp only [bind_eq_ok] at h
    obtain ⟨m, k₁, hm, a, ⟨d₁, n₁⟩, ha, t, k₂, ht, k₃, k₄, hg, b, ⟨d₂, n₂⟩, hb, h⟩ := h
    obtain ⟨rfl, rfl⟩ := freshLabel_eq_ok.mp hm
    obtain ⟨he, rfl⟩ := value_emits ha
    obtain ⟨hlt, rfl⟩ := branch_ok ht
    obtain ⟨rfl, rfl⟩ := get_eq_ok.mp hg
    obtain ⟨hx, rfl⟩ := statement_emits hb
    obtain ⟨rfl, rfl⟩ := pure_eq_ok.mp h
    exact ⟨by simpa [hlt] using Emits.whileLoop he hx, rfl⟩
  | .forLoop i init e update x, d, n, code, k', h => by
    unfold statement at h
    have h := balanced_ok h
    simp only [bind_eq_ok] at h
    obtain ⟨m, k₁, hm, f, ⟨d₀, n₀⟩, hf, a, ⟨d₁, n₁⟩, ha, t, k₂, ht, k₃, k₄, hg, b, ⟨d₂, n₂⟩, hb,
      u, ⟨d₅, n₅⟩, hu, h⟩ := h
    obtain ⟨rfl, rfl⟩ := freshLabel_eq_ok.mp hm
    obtain ⟨hfe, rfl⟩ := optional_emits hf
    obtain ⟨he, rfl⟩ := value_emits ha
    obtain ⟨hlt, rfl⟩ := branch_ok ht
    obtain ⟨rfl, rfl⟩ := get_eq_ok.mp hg
    obtain ⟨hx, rfl⟩ := statement_emits hb
    obtain ⟨hue, rfl⟩ := optional_emits hu
    obtain ⟨rfl, rfl⟩ := pure_eq_ok.mp h
    exact ⟨by simpa [hlt] using Emits.forLoop hfe he hx hue, rfl⟩
  | .breakLoop i, d, n, code, k', h => by
    unfold statement at h
    have h := balanced_ok h
    cases hc : c.loops with
    | nil =>
      rw [hc] at h
      exact absurd h throw_ne_ok
    | cons t ts =>
      rw [hc] at h
      obtain ⟨hd, hl, rfl⟩ := jumpOut_ok h
      exact ⟨by simpa [hl] using Emits.breakLoop hc hd, rfl⟩
  | .continueLoop i, d, n, code, k', h => by
    unfold statement at h
    have h := balanced_ok h
    cases hc : c.loops with
    | nil =>
      rw [hc] at h
      exact absurd h throw_ne_ok
    | cons t ts =>
      rw [hc] at h
      obtain ⟨hd, hl, rfl⟩ := jumpOut_ok h
      exact ⟨by simpa [hl] using Emits.continueLoop hc hd, rfl⟩
  | .empty i, d, n, code, k', h => by
    unfold statement at h
    have h := balanced_ok h
    obtain ⟨rfl, rfl⟩ := pure_eq_ok.mp h
    exact ⟨.empty, rfl⟩
  | .num .., d, n, code, k', h | .var .., d, n, code, k', h | .member .., d, n, code, k', h
  | .binary .., d, n, code, k', h | .not .., d, n, code, k', h | .assign .., d, n, code, k', h
  | .ternary .., d, n, code, k', h | .addr .., d, n, code, k', h | .deref .., d, n, code, k', h
  | .sizeof .., d, n, code, k', h | .call .., d, n, code, k', h
  | .stmtExpr .., d, n, code, k', h => nomatch h
termination_by structural x => x

theorem statements_emits {c : Context} :
    ∀ {xs : List Node} {d n : Nat} {code : Code} {k' : Counters},
      statements c xs ⟨d, n⟩ = .ok (code, k') →
        Emits c (.statements xs) d n code.lines k'.labels ∧ k'.depth = d
  | [], d, n, code, k', h => by
    cases h
    exact ⟨.noStatements, rfl⟩
  | x :: xs, d, n, code, k', h => by
    simp only [statements, bind_eq_ok] at h
    obtain ⟨a, ⟨d₁, n₁⟩, ha, b, k₂, hb, h⟩ := h
    obtain ⟨hx, rfl⟩ := statement_emits ha
    obtain ⟨hs, hd⟩ := statements_emits hb
    obtain ⟨rfl, rfl⟩ := pure_eq_ok.mp h
    exact ⟨by simpa using Emits.statement hx hs, hd⟩
termination_by structural x => x

theorem optional_emits {c : Context} :
    ∀ {x : Option Node} {d n : Nat} {code : Code} {k' : Counters},
      optional c x ⟨d, n⟩ = .ok (code, k') →
        Emits c (.optional x) d n code.lines k'.labels ∧ k'.depth = d
  | none, d, n, code, k', h => by
    cases h
    exact ⟨.absent, rfl⟩
  | some x, d, n, code, k', h => by
    obtain ⟨hx, hd⟩ := statement_emits h
    exact ⟨.present hx, hd⟩
termination_by structural x => x

end


/-- An emission that succeeds gives the lines that `Emits` tells. -/
theorem emits_of_ok {c : Context} {task : Task} {d n : Nat} {code : Code} {k' : Counters}
    (h : task.emit c ⟨d, n⟩ = .ok (code, k')) :
    Emits c task d n code.lines k'.labels ∧ k'.depth = d + task.slots := by
  cases task with
  | value x => exact value_emits h
  | address x => exact address_emits h
  | arguments xs => exact arguments_emits h
  | statementValue xs => exact statementValue_emits h
  | statement x => exact statement_emits h
  | statements xs => exact statements_emits h
  | optional x => exact optional_emits h

theorem bind_ok {α β : Type} {x : Emit α} {f : α → Emit β} {k k₁ : Counters} {a : α}
    (h : x k = .ok (a, k₁)) : (x >>= f) k = f a k₁ := by
  change (x k >>= fun p => f p.1 p.2) = f a k₁
  rw [h]
  rfl

def Gives (x : Emit Code) (k : Counters) (ls : List Line) (k' : Counters) : Prop :=
  ∃ code, x k = .ok (code, k') ∧ code.lines = ls

/-- A variable that has an address can be located. -/
theorem locates_gives {c : Context} {id : VarId} {lea : Instr} (h : Locates c id lea) (d n : Nat) :
    Gives (varAddress c id) ⟨d, n⟩ [.instr lea, .instr (.push .rax)] ⟨d + 1, n⟩ := by
  cases h with
  | onFrame hv hl hk =>
    refine ⟨instr _ ++ instr _, ?_, rfl⟩
    simp only [varAddress, var, hv, slot, hk, pure_bind, hl, if_true]
    rfl
  | inData hv hl =>
    refine ⟨instr _ ++ instr _, ?_, rfl⟩
    simp only [varAddress, var, hv, pure_bind, hl, Bool.false_eq_true, if_false]
    rfl

/-- A type that can be loaded is loaded. -/
theorem loads_gives {t : CType} {ls : List Line} (h : Loads t ls) (d n : Nat) :
    Gives (load t) ⟨d + 1, n⟩ ls ⟨d + 1, n⟩ := by
  cases h with
  | aggregate ht =>
    refine ⟨.empty, ?_, rfl⟩
    simp only [load, ht, if_true]
    rfl
  | scalar ht hw =>
    refine ⟨instr _ ++ instr _ ++ instr _, ?_, rfl⟩
    simp only [load, ht, hw]
    rfl

theorem store_gives {t : CType} {w : Width} (hw : Width.ofBytes? t.size = some w) (d n : Nat) :
    Gives (store t) ⟨d + 2, n⟩ [.instr (.pop .rdi), .instr (.pop .rax),
      .instr (.store w .rdi .rax), .instr (.push .rdi)] ⟨d + 1, n⟩ := by
  refine ⟨instr _ ++ instr _ ++ instr _ ++ instr _, ?_, rfl⟩
  simp only [store, hw]
  rfl

theorem popAll_gives (rs : List Reg) (d n : Nat) :
    Gives (popAll rs) ⟨d + rs.length, n⟩ (popLines rs) ⟨d, n⟩ := by
  induction rs generalizing d with
  | nil => exact ⟨.empty, rfl, rfl⟩
  | cons r rs ih =>
    obtain ⟨a, ha, hl⟩ := ih (d + 1)
    have hd : d + (r :: rs).length = d + 1 + rs.length := by simp only [List.length_cons]; omega
    refine ⟨a ++ instr (.pop r), ?_, by simp [hl, popLines]⟩
    rw [hd]
    exact bind_ok ha

/-- A call with few enough arguments succeeds. -/
theorem callFunction_gives (name : String) (t : CType) (count d n : Nat)
    (hc : count ≤ argumentRegs.length) :
    Gives (callFunction name count t) ⟨d + count, n⟩
      (popLines (argumentRegs.take count) ++
        (callLines name count d ++ ((extendResult t).lines ++ [.instr (.push .rax)])))
          ⟨d + 1, n⟩ := by
  have hl : d + count = d + (argumentRegs.take count).length := by
    rw [List.length_take, Nat.min_eq_left hc]
  obtain ⟨a, ha, hla⟩ := popAll_gives (argumentRegs.take count) d n
  rw [← hl] at ha
  refine ⟨_, bind_ok ha, ?_⟩
  by_cases hd : d % 2 = 1 <;> simp [hla, callLines, hd]

/-- A jump out of a loop succeeds if no slot is missing. -/
theorem jumpOut_gives (target : Label) {depth d : Nat} (n : Nat) (h : depth ≤ d) :
    Gives (jumpOut target depth) ⟨d, n⟩ (dropLines (d - depth) ++ [.instr (.jump target)])
      ⟨d, n⟩ := by
  refine ⟨(if depth < d then instr (.addImm ((d - depth) * 8) .rsp) else .empty) ++
    instr (.jump target), ?_, ?_⟩
  · have hd : ¬d < depth := Nat.not_lt.mpr h
    change (if d < depth then _ else _ : Emit Code) ⟨d, n⟩ = _
    rw [if_neg hd]
    rfl
  · by_cases hs : depth < d
    · simp [dropLines, hs, Nat.sub_pos_of_lt hs]
    · simp [dropLines, hs, Nat.sub_eq_zero_of_le (Nat.le_of_not_lt hs)]

/-- A statement that leaves the stack as it was passes the check behind it. -/
theorem balanced_gives {p : Location} {body : Emit Code} {d n n' : Nat} {ls : List Line}
    (h : Gives body ⟨d, n⟩ ls ⟨d, n'⟩) : Gives (balanced p body) ⟨d, n⟩ ls ⟨d, n'⟩ := by
  obtain ⟨a, ha, hl⟩ := h
  refine ⟨a, ?_, hl⟩
  change (body >>= fun code => get >>= fun k =>
    if k.depth ≠ d then throw (.stackImbalance p d k.depth) else pure code) ⟨d, n⟩ = _
  rw [bind_ok ha]
  change (if d ≠ d then _ else _ : Emit Code) ⟨d, n'⟩ = _
  rw [if_neg (fun h => h rfl)]
  rfl


theorem typeOf_ok {x : Node} {t : CType} (h : x.type? = some t) (k : Counters) :
    typeOf x k = .ok (t, k) :=
  typeOf_eq_ok.mpr ⟨h, rfl⟩

/-- The lines that `Emits` tells are those of a successful emission. -/
theorem emits_gives {c : Context} {task : Task} {d n n' : Nat} {ls : List Line}
    (h : Emits c task d n ls n') :
    Gives (task.emit c) ⟨d, n⟩ ls ⟨d + task.slots, n'⟩ := by
  induction h with
  | num => exact ⟨_, rfl, rfl⟩
  | @var c i id t lea ls d n hv ht hl =>
    obtain ⟨a, ha, hla⟩ := locates_gives hv d n
    obtain ⟨b, hb, hlb⟩ := loads_gives hl d n
    have htype := typeOf_ok (x := .var i id) ht ⟨d + 1, n⟩
    refine ⟨a ++ b, ?_, by simp [hla, hlb]⟩
    exact (bind_ok ha).trans ((bind_ok htype).trans ((bind_ok hb).trans rfl))
  | @deref c i e t a ls d n n' he ht hl ih =>
    obtain ⟨a, ha, hla⟩ := ih
    obtain ⟨b, hb, hlb⟩ := loads_gives hl d n'
    have htype := typeOf_ok (x := .deref i e) ht ⟨d + 1, n'⟩
    refine ⟨a ++ b, ?_, by simp [hla, hlb]⟩
    exact (bind_ok ha).trans ((bind_ok htype).trans ((bind_ok hb).trans rfl))
  | @member c i b name m t a ls d n n' hb ht hl ih =>
    obtain ⟨a, ha, hla⟩ := ih
    obtain ⟨l, hll, hlines⟩ := loads_gives hl d n'
    have htype := typeOf_ok (x := .member i b name (some m)) ht ⟨d + 1, n'⟩
    refine ⟨_, (bind_ok ha).trans ((bind_ok rfl).trans
      ((bind_ok htype).trans ((bind_ok hll).trans rfl))), ?_⟩
    simp [hla, hlines, memberLines]
  | addr he ih => exact ih
  | @assign c i l r t w a b d n n₁ n₂ hl hr ht hw ihl ihr =>
    obtain ⟨a, ha, hla⟩ := ihl
    obtain ⟨b, hb, hlb⟩ := ihr
    obtain ⟨s, hs, hls⟩ := store_gives hw d n₂
    refine ⟨_, (bind_ok ha).trans ((bind_ok hb).trans ((bind_ok (typeOf_ok ht _)).trans
      ((bind_ok hs).trans rfl))), ?_⟩
    simp [hla, hlb, hls]
  | @logical c i op l r a b d n n₁ n₂ hop hl hr ihl ihr =>
    obtain ⟨a, ha, hla⟩ := ihl
    obtain ⟨b, hb, hlb⟩ := ihr
    simp only [Task.emit, value, if_pos hop]
    refine ⟨_, (bind_ok rfl).trans
      ((bind_ok ha).trans ((bind_ok rfl).trans ((bind_ok hb).trans rfl))), ?_⟩
    simp [hla, hlb, testLines, logicalLines]
  | @binary c i op l r a b d n n₁ n₂ hop hl hr ihl ihr =>
    obtain ⟨a, ha, hla⟩ := ihl
    obtain ⟨b, hb, hlb⟩ := ihr
    simp only [Task.emit, value, if_neg hop]
    refine ⟨_, (bind_ok ha).trans ((bind_ok hb).trans rfl), ?_⟩
    simp [hla, hlb]
  | not he ih =>
    obtain ⟨a, ha, hla⟩ := ih
    exact ⟨_, (bind_ok ha).trans rfl, by simp [hla]⟩
  | ternary he hx hy ihe ihx ihy =>
    obtain ⟨a, ha, hla⟩ := ihe
    obtain ⟨b, hb, hlb⟩ := ihx
    obtain ⟨e, he, hle⟩ := ihy
    refine ⟨_, (bind_ok rfl).trans ((bind_ok ha).trans ((bind_ok rfl).trans ((bind_ok hb).trans
      ((bind_ok rfl).trans ((bind_ok he).trans rfl))))), ?_⟩
    simp [hla, hlb, hle, testLines]
  | @call c i name args t a d n n' ht hn ha ih =>
    obtain ⟨a, ha, hla⟩ := ih
    obtain ⟨b, hb, hlb⟩ := callFunction_gives name t args.length d n' hn
    have htype := typeOf_ok (x := .call i name args) ht ⟨d, n⟩
    refine ⟨a ++ b, (bind_ok htype).trans ?_, by simp [hla, hlb]⟩
    rw [if_neg (Nat.not_lt.mpr hn)]
    exact (bind_ok ha).trans ((bind_ok hb).trans rfl)
  | stmtExpr h ih => exact ih
  | varAddress hv => exact locates_gives hv _ _
  | derefAddress he ih => exact ih
  | memberAddress hb ih =>
    obtain ⟨a, ha, hla⟩ := ih
    exact ⟨_, (bind_ok ha).trans rfl, by simp [hla, memberLines]⟩
  | noArguments => exact ⟨_, rfl, rfl⟩
  | @argument c e es a b d n n₁ n₂ he hs ihe ihs =>
    obtain ⟨a, ha, hla⟩ := ihe
    obtain ⟨b, hb, hlb⟩ := ihs
    refine ⟨a ++ b, ?_, by simp [hla, hlb]⟩
    have hd : d + (Task.arguments (e :: es)).slots = d + 1 + (Task.arguments es).slots := by
      simp only [Task.slots, List.length_cons]
      omega
    rw [hd]
    exact (bind_ok ha).trans ((bind_ok hb).trans rfl)
  | lastItem he ih => exact ih
  | item hx hs ihx ihs =>
    obtain ⟨a, ha, hla⟩ := ihx
    obtain ⟨b, hb, hlb⟩ := ihs
    exact ⟨a ++ b, (bind_ok ha).trans ((bind_ok hb).trans rfl), by simp [hla, hlb]⟩
  | exprStmt he ih =>
    obtain ⟨a, ha, hla⟩ := ih
    exact balanced_gives ⟨_, (bind_ok ha).trans rfl, by simp [hla]⟩
  | retVoid => exact balanced_gives ⟨_, rfl, rfl⟩
  | ret he ih =>
    obtain ⟨a, ha, hla⟩ := ih
    exact balanced_gives ⟨_, (bind_ok ha).trans rfl, by simp [hla]⟩
  | block h ih => exact balanced_gives ih
  | ifElse he hx hy ihe ihx ihy =>
    obtain ⟨a, ha, hla⟩ := ihe
    obtain ⟨b, hb, hlb⟩ := ihx
    obtain ⟨e, he, hle⟩ := ihy
    refine balanced_gives ⟨_, (bind_ok rfl).trans ((bind_ok ha).trans ((bind_ok rfl).trans
      ((bind_ok hb).trans ((bind_ok he).trans rfl)))), ?_⟩
    simp [hla, hlb, hle, testLines]
  | whileLoop he hx ihe ihx =>
    obtain ⟨a, ha, hla⟩ := ihe
    obtain ⟨b, hb, hlb⟩ := ihx
    refine balanced_gives ⟨_, (bind_ok rfl).trans ((bind_ok ha).trans ((bind_ok rfl).trans
      ((bind_ok rfl).trans ((bind_ok hb).trans rfl)))), ?_⟩
    simp [hla, hlb, testLines]
  | forLoop hf he hx hu ihf ihe ihx ihu =>
    obtain ⟨f, hf, hlf⟩ := ihf
    obtain ⟨a, ha, hla⟩ := ihe
    obtain ⟨b, hb, hlb⟩ := ihx
    obtain ⟨u, hu, hlu⟩ := ihu
    refine balanced_gives ⟨_, (bind_ok rfl).trans ((bind_ok hf).trans ((bind_ok ha).trans
      ((bind_ok rfl).trans ((bind_ok rfl).trans ((bind_ok hb).trans ((bind_ok hu).trans
        rfl)))))), ?_⟩
    simp [hlf, hla, hlb, hlu, testLines]
  | @breakLoop c i t ts d n hc hd =>
    refine balanced_gives ?_
    rw [hc]
    exact jumpOut_gives t.finish n hd
  | @continueLoop c i t ts d n hc hd =>
    refine balanced_gives ?_
    rw [hc]
    exact jumpOut_gives t.again n hd
  | empty => exact balanced_gives ⟨_, rfl, rfl⟩
  | noStatements => exact ⟨_, rfl, rfl⟩
  | statement hx hs ihx ihs =>
    obtain ⟨a, ha, hla⟩ := ihx
    obtain ⟨b, hb, hlb⟩ := ihs
    exact ⟨a ++ b, (bind_ok ha).trans ((bind_ok hb).trans rfl), by simp [hla, hlb]⟩
  | absent => exact ⟨_, rfl, rfl⟩
  | present hx ih => exact ih

end Emission

end StackC
