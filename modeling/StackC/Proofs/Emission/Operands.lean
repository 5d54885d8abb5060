import StackC.Proofs.Emission.Functions
import StackC.Proofs.Typing.Parts

namespace StackC

namespace Assembly

def Label.isNumbered : Label → Bool
  | numbered _ _ => true
  | _ => false

end Assembly

namespace Emission

open Assembly

def Task.roots : Task → List Node
  | value n | address n | statement n => [n]
  | arguments ns | statementValue ns | statements ns => ns
  | optional n => n.toList

def Task.Mentions (t : Task) (e : Node) : Prop := ∃ n ∈ t.roots, e.Within n

/-- Whether a line refers to nothing in the program: it is an instruction that names neither a place
on the frame nor a symbol nor a member, or a numbered label, or a jump to one. It moves the stack
pointer down by one slot if it does so at all. -/
def isNeutral : Line → Bool
  | .directive _ => false
  | .label l | .instr (.jump l) | .instr (.jumpIf _ l) => l.isNumbered
  | .instr (.leaFrame _ _) | .instr (.leaSymbol _ _) | .instr (.storeFrame _ _ _) => false
  | .instr (.call _ _) => false
  | .instr (.addImm _ r) => r == .rsp
  | .instr (.subImm k _) => k == 8
  | _ => true

/-- A line that refers to a variable, a member or a function only if `M` holds of a tree for it. -/
inductive Refers (c : Context) (M : Node → Prop) : Line → Prop where
  | neutral {x} (h : isNeutral x = true) : Refers c M x
  | located {i id lea} (hm : M (.var i id)) (hl : Locates c id lea) : Refers c M (.instr lea)
  | member {i b name m} (hm : M (.member i b name (some m))) :
      Refers c M (.instr (.addImm m.offset .rax))
  | call {i name args} (hm : M (.call i name args)) : Refers c M (.instr (.call name args.length))
  | argument {id w r k} (hk : c.frame.offset? id = some k) : Refers c M (.instr (.storeFrame w r k))
  | leave : Refers c M (.instr (.jump (.functionEnd c.name)))
  | finish {t} (ht : t ∈ c.loops) : Refers c M (.instr (.jump t.finish))
  | again {t} (ht : t ∈ c.loops) : Refers c M (.instr (.jump t.again))

/-- A line that refers to what one tree mentions refers to what a larger tree mentions. -/
theorem Refers.mono {c : Context} {M M' : Node → Prop} {x : Line} (h : Refers c M x)
    (hm : ∀ e, M e → M' e) : Refers c M' x := by
  cases h with
  | neutral h => exact .neutral h
  | located hv hl => exact .located (hm _ hv) hl
  | member h => exact .member (hm _ h)
  | call h => exact .call (hm _ h)
  | argument hk => exact .argument hk
  | leave => exact .leave
  | finish ht => exact .finish ht
  | again ht => exact .again ht

/-- The targets of a loop are numbered labels, and where variables lie does not depend on it. -/
theorem Refers.outside {c : Context} {M : Node → Prop} {x : Line} {n d : Nat}
    (h : Refers (c.inLoop n d) M x) : Refers c M x := by
  cases h with
  | neutral h => exact .neutral h
  | located hv hl => exact .located hv (hl.withLoops c.loops)
  | member h => exact .member h
  | call h => exact .call h
  | argument hk => exact .argument hk
  | leave => exact .leave
  | finish ht =>
    rcases List.mem_cons.mp ht with rfl | ht
    · exact .neutral rfl
    · exact .finish ht
  | again ht =>
    rcases List.mem_cons.mp ht with rfl | ht
    · exact .neutral rfl
    · exact .again ht

/-- A symbol whose address is taken is the name of a variable. -/
theorem Refers.of_leaSymbol {c : Context} {M : Node → Prop} {name : String} {dst : Reg}
    (h : Refers c M (.instr (.leaSymbol name dst))) :
    ∃ i id, M (.var i id) ∧ Locates c id (.leaSymbol name dst) := by
  generalize hx : Line.instr (.leaSymbol name dst) = x at h
  cases h with
  | neutral h =>
    rw [← hx] at h
    cases h
  | located hm hl =>
    obtain rfl := Line.instr.inj hx
    exact ⟨_, _, hm, hl⟩
  | _ => cases hx

/-- A number that is added to an address is the offset of a member. -/
theorem Refers.of_addImm {c : Context} {M : Node → Prop} {n : Nat}
    (h : Refers c M (.instr (.addImm n .rax))) :
    ∃ i b name m, M (.member i b name (some m)) ∧ m.offset = n := by
  generalize hx : Line.instr (.addImm n .rax) = x at h
  cases h with
  | neutral h =>
    rw [← hx] at h
    cases h
  | located _ hl =>
    obtain rfl := Line.instr.inj hx
    cases hl
  | member hm =>
    cases hx
    exact ⟨_, _, _, _, hm, rfl⟩
  | _ => cases hx

def Confined (c : Context) (t : Task) (ls : List Line) : Prop := ∀ x ∈ ls, Refers c t.Mentions x

namespace Confined

variable {c : Context} {t t' : Task} {as bs ls : List Line}

/-- Neutral lines refer to nothing. -/
theorem of_neutral (h : ls.all isNeutral = true) : Confined c t ls :=
  fun x hx => .neutral (List.all_eq_true.mp h x hx)

theorem append (ha : Confined c t as) (hb : Confined c t bs) : Confined c t (as ++ bs) :=
  List.forall_mem_append.mpr ⟨ha, hb⟩

theorem cons {x : Line} (hx : Refers c t.Mentions x) (h : Confined c t ls) :
    Confined c t (x :: ls) :=
  List.forall_mem_cons.mpr ⟨hx, h⟩

/-- A task about parts of trees mentions nothing that a task about the trees does not. -/
theorem below (h : Confined c t ls)
    (ht : ∀ n ∈ t.roots, n ∈ t'.roots ∨ ∃ m ∈ t'.roots, n ∈ m.children) : Confined c t' ls := by
  refine fun x hx => (h x hx).mono fun e he => ?_
  obtain ⟨n, hn, hw⟩ := he
  rcases ht n hn with hr | ⟨m, hm, hc⟩
  · exact ⟨n, hr, hw⟩
  · exact ⟨m, hm, hw.trans (.child hc .self)⟩

/-- The targets of a loop of its own are nothing that a tree refers to. -/
theorem outside {n d : Nat} (h : Confined (c.inLoop n d) t ls) : Confined c t ls :=
  fun x hx => (h x hx).outside

end Confined

theorem Task.mentions_root {t : Task} {n : Node} (h : t.roots = [n]) : t.Mentions n :=
  ⟨n, by rw [h]; exact List.mem_cons_self, .self⟩

/-! Lines that refer to nothing, whatever the tree, and those that refer to their tree. -/

theorem neutral_loads {t : CType} {ls : List Line} (h : Loads t ls) : ls.all isNeutral = true := by
  cases h <;> rfl

theorem neutral_literal (v : Int64) : isNeutral (.instr (literal v)) = true := by
  unfold literal
  split <;> rfl

@[simp] theorem neutral_operation (op : BinaryOp) : (operation op).lines.all isNeutral = true := by
  cases op <;> rfl

@[simp] theorem neutral_popLines (rs : List Reg) : (popLines rs).all isNeutral = true := by
  simp [popLines, isNeutral]

@[simp] theorem neutral_dropLines (k : Nat) : (dropLines k).all isNeutral = true := by
  unfold dropLines
  split <;> rfl

@[simp] theorem neutral_extendResult (t : CType) : (extendResult t).lines.all isNeutral = true := by
  unfold extendResult
  split
  · split <;> rfl
  · rfl

/-- The address of a variable refers to the variable. -/
theorem confined_lea {c : Context} {i : Info} {id : VarId} {lea : Instr} {t : Task}
    (ht : t.roots = [.var i id]) (h : Locates c id lea) :
    Confined c t [.instr lea, .instr (.push .rax)] :=
  .cons (.located (Task.mentions_root ht) h) (.of_neutral rfl)

theorem confined_memberLines {c : Context} {i : Info} {b : Node} {name : String} {m : Member CType}
    {t : Task} (ht : t.roots = [.member i b name (some m)]) : Confined c t (memberLines m) :=
  .cons (.neutral rfl) (.cons (.member (Task.mentions_root ht)) (.of_neutral rfl))

/-- The lines of a call refer to the function. -/
theorem confined_callLines {c : Context} {i : Info} {name : String} {args : List Node} {t : Task}
    (ht : t.roots = [.call i name args]) (d : Nat) :
    Confined c t (callLines name args.length d) := by
  have hcall : Refers c t.Mentions (.instr (.call name args.length)) :=
    .call (Task.mentions_root ht)
  unfold callLines
  split
  · exact .cons (.neutral rfl) (.cons (.neutral rfl) (.cons hcall (.of_neutral rfl)))
  · exact .cons (.neutral rfl) (.cons hcall (.of_neutral rfl))

/-- Emitted lines refer to what their trees mention. -/
theorem emits_confined {c : Context} {task : Task} {d n n' : Nat} {ls : List Line}
    (h : Emits c task d n ls n') : Confined c task ls := by
  -- In every case the parts come from trees right below, and what joins them is about the root.
  induction h with
  | num => exact .cons (.neutral (neutral_literal _)) (.of_neutral rfl)
  | var hv ht hl => exact (confined_lea rfl hv).append (.of_neutral (neutral_loads hl))
  | deref he ht hl ih =>
    exact (ih.below (by simp [Task.roots, Node.children])).append (.of_neutral (neutral_loads hl))
  | member hb ht hl ih =>
    exact (ih.below (by simp [Task.roots, Node.children])).append
      ((confined_memberLines rfl).append (.of_neutral (neutral_loads hl)))
  | addr he ih => exact ih.below (by simp [Task.roots, Node.children])
  | assign hl hr ht hw ihl ihr =>
    exact (ihl.below (by simp [Task.roots, Node.children])).append
      ((ihr.below (by simp [Task.roots, Node.children])).append (.of_neutral rfl))
  | logical hop hl hr ihl ihr =>
    exact (ihl.below (by simp [Task.roots, Node.children])).append ((Confined.of_neutral rfl).append
      ((ihr.below (by simp [Task.roots, Node.children])).append (.of_neutral rfl)))
  | binary hop hl hr ihl ihr =>
    exact (ihl.below (by simp [Task.roots, Node.children])).append
      ((ihr.below (by simp [Task.roots, Node.children])).append
        (.cons (.neutral rfl)
          (.cons (.neutral rfl)
            ((Confined.of_neutral (neutral_operation _)).append (.of_neutral rfl)))))
  | not he ih => exact (ih.below (by simp [Task.roots, Node.children])).append (.of_neutral rfl)
  | ternary he hx hy ihe ihx ihy =>
    exact (ihe.below (by simp [Task.roots, Node.children])).append ((Confined.of_neutral rfl).append
      ((ihx.below (by simp [Task.roots, Node.children])).append
        (.cons (.neutral rfl) (.cons (.neutral rfl) (.cons (.neutral rfl)
          ((ihy.below (by simp [Task.roots, Node.children])).append (.of_neutral rfl)))))))
  | ifElse he hx hy ihe ihx ihy =>
    exact (ihe.below (by simp [Task.roots, Node.children])).append ((Confined.of_neutral rfl).append
      ((ihx.below (by simp [Task.roots, Node.children])).append
        (.cons (.neutral rfl) (.cons (.neutral rfl)
          ((ihy.below (by simp [Task.roots, Node.children])).append (.of_neutral rfl))))))
  | call ht hn ha ih =>
    exact (ih.below (by simp +contextual [Task.roots, Node.children])).append
      ((Confined.of_neutral (neutral_popLines _)).append ((confined_callLines rfl _).append
        ((Confined.of_neutral (neutral_extendResult _)).append (.of_neutral rfl))))
  | stmtExpr h ih | block h ih => exact ih.below (by simp +contextual [Task.roots, Node.children])
  | varAddress hv => exact confined_lea rfl hv
  | derefAddress he ih => exact ih.below (by simp [Task.roots, Node.children])
  | memberAddress hb ih =>
    exact (ih.below (by simp [Task.roots, Node.children])).append (confined_memberLines rfl)
  | noArguments | empty | noStatements | absent => exact .of_neutral rfl
  | argument he hs ihe ihs | statement he hs ihe ihs =>
    exact (ihe.below (by simp [Task.roots])).append (ihs.below (by simp +contextual [Task.roots]))
  | lastItem he ih => exact ih.below (by simp [Task.roots, Node.children])
  | item hx hs ihx ihs =>
    exact (ihx.below (by simp [Task.roots])).append (ihs.below (by simp +contextual [Task.roots]))
  | exprStmt he ih =>
    exact (ih.below (by simp [Task.roots, Node.children])).append (.of_neutral rfl)
  | retVoid => exact .cons .leave (.of_neutral rfl)
  | ret he ih =>
    exact (ih.below (by simp [Task.roots, Node.children])).append
      (.cons (.neutral rfl) (.cons .leave (.of_neutral rfl)))
  | whileLoop he hx ihe ihx =>
    exact .cons (.neutral rfl) ((ihe.below (by simp [Task.roots, Node.children])).append
      ((Confined.of_neutral rfl).append
        ((ihx.outside.below (by simp [Task.roots, Node.children])).append (.of_neutral rfl))))
  | forLoop hf he hx hu ihf ihe ihx ihu =>
    exact (ihf.below (by simp +contextual [Task.roots, Node.children])).append (.cons (.neutral rfl)
      ((ihe.below (by simp [Task.roots, Node.children])).append ((Confined.of_neutral rfl).append
        ((ihx.outside.below (by simp [Task.roots, Node.children])).append (.cons (.neutral rfl)
          ((ihu.below (by simp +contextual [Task.roots, Node.children])).append
            (.of_neutral rfl)))))))
  | breakLoop hc hd =>
    exact (Confined.of_neutral (neutral_dropLines _)).append
      (.cons (.finish (by rw [hc]; exact List.mem_cons_self)) (.of_neutral rfl))
  | continueLoop hc hd =>
    exact (Confined.of_neutral (neutral_dropLines _)).append
      (.cons (.again (by rw [hc]; exact List.mem_cons_self)) (.of_neutral rfl))
  | present hx ih => exact ih.below (by simp [Task.roots])

/-- The stores of the arguments refer to slots of the frame. -/
theorem spills_refers {c : Context} {M : Node → Prop} {index : Nat} {ids : List VarId}
    {ls : List Line} (h : Spills c index ids ls) : ∀ x ∈ ls, Refers c M x := by
  induction h with
  | nil => exact fun x hx => absurd hx List.not_mem_nil
  | cons hv hw hr hk hs ih => exact List.forall_mem_cons.mpr ⟨.argument hk, ih⟩

/-- The lines between the opening of the frame and the end of a function refer to what its body
mentions and to slots of its frame. -/
theorem emitsBody_refers {p : Program} {f : Function} {body : Node} {n n' : Nat} {ls : List Line}
    (h : EmitsBody p f body n ls n') :
    ∀ x ∈ ls, Refers (.ofFunction p f) (fun e => e.Within body) x := by
  obtain ⟨hs, hb⟩ := h
  refine List.forall_mem_append.mpr ⟨spills_refers hs, List.forall_mem_append.mpr ⟨?_, ?_⟩⟩
  · refine fun x hx => (emits_confined hb x hx).mono fun e he => ?_
    obtain ⟨m, hm, hw⟩ := he
    obtain rfl := List.mem_singleton.mp hm
    exact hw
  · exact List.forall_mem_singleton.mpr (.neutral rfl)

end Emission

end StackC
