import StackC.Proofs.Emission.Functions
import StackC.Proofs.Program.Frame
import StackC.Proofs.Typing.Elaborated

namespace StackC

namespace Emission

open Assembly

def HasLines (c : Context) (task : Task) (d : Nat) : Prop := ∀ n, ∃ ls n', Emits c task d n ls n'

/-- What must have lines for a tree in a role. -/
def Emittable (c : Context) (d : Nat) : Role → Node → Prop
  | .expression, x => HasLines c (.value x) d ∧ (x.isReferable = true → HasLines c (.address x) d)
  | .statement, x => HasLines c (.statement x) d

/-- A place at depth `d` whose context knows the variables of `S`, and a loop if `inLoop` holds. -/
structure Suits (c : Context) (S : Names) (inLoop : Bool) (d : Nat) : Prop where
  locates : ∀ id, S.vars id → ∃ lea, Locates c id lea
  loop : inLoop = true → ∃ t ts, c.loops = t :: ts ∧ t.depth ≤ d

namespace Suits

variable {c : Context} {S : Names} {b : Bool} {d : Nat}

/-- More slots in use do no harm. -/
theorem deeper (h : Suits c S b d) (k : Nat) : Suits c S b (d + k) where
  locates := h.locates
  loop hb := by
    obtain ⟨t, ts, hc, hd⟩ := h.loop hb
    exact ⟨t, ts, hc, Nat.le_add_right_of_le hd⟩

/-- Inside of a loop jumps have a target. -/
theorem body (h : Suits c S b d) (n : Nat) : Suits (c.inLoop n d) S true d where
  locates id hid := by
    obtain ⟨lea, hl⟩ := h.locates id hid
    exact ⟨lea, hl.withLoops _⟩
  loop _ := ⟨_, _, rfl, Nat.le_refl d⟩

end Suits

/-- Every object of a sound type can be loaded. -/
theorem exists_loads {t : CType} (h : t.Sound) : ∃ ls, Loads t ls := by
  cases ht : t.isArray || t.isStruct with
  | true => exact ⟨_, .aggregate ht⟩
  | false =>
    obtain ⟨w, hw⟩ := h.width ht
    exact ⟨_, .scalar ht hw⟩

section Sequences

variable {c : Context} {d : Nat}

/-- Arguments have lines if each of them has lines at its own depth. -/
theorem hasLines_arguments {es : List Node}
    (h : ∀ e ∈ es, ∀ k, HasLines c (.value e) (d + k)) : HasLines c (.arguments es) d := by
  induction es generalizing d with
  | nil => exact fun n => ⟨_, _, .noArguments⟩
  | cons e es ih =>
    intro n
    obtain ⟨a, n₁, ha⟩ := h e List.mem_cons_self 0 n
    have hrest : ∀ x ∈ es, ∀ k, HasLines c (.value x) (d + 1 + k) := by
      intro x hx k
      rw [Nat.add_assoc]
      exact h x (List.mem_cons_of_mem _ hx) (1 + k)
    obtain ⟨b, n₂, hb⟩ := ih hrest n₁
    exact ⟨_, _, .argument ha hb⟩

theorem hasLines_statements {xs : List Node} (h : ∀ x ∈ xs, HasLines c (.statement x) d) :
    HasLines c (.statements xs) d := by
  induction xs with
  | nil => exact fun n => ⟨_, _, .noStatements⟩
  | cons x xs ih =>
    intro n
    obtain ⟨a, n₁, ha⟩ := h x List.mem_cons_self n
    obtain ⟨b, n₂, hb⟩ := ih (fun y hy => h y (List.mem_cons_of_mem _ hy)) n₁
    exact ⟨_, _, .statement ha hb⟩

theorem hasLines_optional {x : Option Node} (h : ∀ y ∈ x, HasLines c (.statement y) d) :
    HasLines c (.optional x) d := by
  intro n
  cases x with
  | none => exact ⟨_, _, .absent⟩
  | some y =>
    obtain ⟨a, n₁, ha⟩ := h y rfl n
    exact ⟨_, _, .present ha⟩

/-- The value of the last item is left, so its code is that of an expression. -/
theorem hasLines_statementValue {xs : List Node} {i : Info} {e : Node}
    (hl : xs.getLast? = some (.exprStmt i e)) (h : ∀ x ∈ xs, HasLines c (.statement x) d) :
    HasLines c (.statementValue xs) d := by
  induction xs with
  | nil => exact nomatch hl
  | cons x xs ih =>
    intro n
    obtain ⟨a, n₁, ha⟩ := h x List.mem_cons_self n
    cases xs with
    | nil =>
      cases hl
      cases ha with
      | exprStmt he => exact ⟨_, _, .lastItem he⟩
    | cons y ys =>
      rw [List.getLast?_cons_cons] at hl
      obtain ⟨b, n₂, hb⟩ := ih hl (fun z hz => h z (List.mem_cons_of_mem _ hz)) n₁
      exact ⟨_, _, .item ha hb⟩

end Sequences

open Typing in
/-- A well-formed and typed tree has lines wherever its names and loops are known. -/
theorem shaped_emittable {S : Names} {r : Role} {b : Bool} {x : Node} (hx : Shaped S r b x)
    {t : Typing.Context} (ht : t.Sound) (h : Typed t x) {c : Context} {d : Nat}
    (hc : Suits c S b d) : Emittable c d r x := by
  induction hx generalizing c d with
  | num => exact ⟨fun n => ⟨_, _, .num⟩, nofun⟩
  | var hv =>
    obtain ⟨lea, hlea⟩ := hc.locates _ hv
    obtain ⟨u, hu, hs⟩ := h.sound ht
    obtain ⟨ls, hls⟩ := exists_loads hs
    exact ⟨fun n => ⟨_, _, .var hlea hu hls⟩, fun _ n => ⟨_, _, .varAddress hlea⟩⟩
  | member he ih =>
    obtain ⟨u, hu, hs⟩ := h.sound ht
    obtain ⟨ls, hls⟩ := exists_loads hs
    cases h with
    | member hb hr hbt hm =>
      have hbase := (ih hb hc).2 hr
      refine ⟨fun n => ?_, fun _ n => ?_⟩
      · obtain ⟨a, n', ha⟩ := hbase n
        exact ⟨_, _, .member ha hu hls⟩
      · obtain ⟨a, n', ha⟩ := hbase n
        exact ⟨_, _, .memberAddress ha⟩
  | @binary _ i op l r hl hr ihl ihr =>
    obtain ⟨htl, htr⟩ := h.operands
    refine ⟨fun n => ?_, nofun⟩
    by_cases hop : op = .logAnd ∨ op = .logOr
    · obtain ⟨a, n₁, ha⟩ := (ihl htl hc).1 (n + 1)
      obtain ⟨a', n₂, ha'⟩ := (ihr htr hc).1 n₁
      exact ⟨_, _, .logical hop ha ha'⟩
    · obtain ⟨a, n₁, ha⟩ := (ihl htl hc).1 n
      obtain ⟨a', n₂, ha'⟩ := (ihr htr (hc.deeper 1)).1 n₁
      exact ⟨_, _, .binary hop ha ha'⟩
  | not he ih =>
    cases h with
    | not hte =>
      refine ⟨fun n => ?_, nofun⟩
      obtain ⟨a, n', ha⟩ := (ih hte hc).1 n
      exact ⟨_, _, .not ha⟩
  | assign hl hr ihl ihr =>
    cases h with
    | assign htl htr hlr hlt hplain =>
      refine ⟨fun n => ?_, nofun⟩
      obtain ⟨u, hu, hs⟩ := htl.sound ht
      cases hu.symm.trans hlt
      obtain ⟨w, hw⟩ := hs.width hplain
      obtain ⟨a, n₁, ha⟩ := (ihl htl hc).2 hlr n
      obtain ⟨a', n₂, ha'⟩ := (ihr htr (hc.deeper 1)).1 n₁
      exact ⟨_, _, .assign ha ha' hlt hw⟩
  | ternary he hx hy ihe ihx ihy =>
    cases h with
    | ternary hte htx hty =>
      refine ⟨fun n => ?_, nofun⟩
      obtain ⟨a, n₁, ha⟩ := (ihe hte hc).1 (n + 1)
      obtain ⟨a', n₂, ha'⟩ := (ihx htx hc).1 n₁
      obtain ⟨a'', n₃, ha''⟩ := (ihy hty hc).1 n₂
      exact ⟨_, _, .ternary ha ha' ha''⟩
  | addr he ih =>
    obtain ⟨hte, hr⟩ := h.addressed
    refine ⟨fun n => ?_, nofun⟩
    obtain ⟨a, n', ha⟩ := (ih hte hc).2 hr n
    exact ⟨_, _, .addr ha⟩
  | deref he ih =>
    obtain ⟨u, hu, hs⟩ := h.sound ht
    obtain ⟨ls, hls⟩ := exists_loads hs
    cases h with
    | deref hte =>
      refine ⟨fun n => ?_, fun _ n => ?_⟩
      · obtain ⟨a, n', ha⟩ := (ih hte hc).1 n
        exact ⟨_, _, .deref ha hu hls⟩
      · obtain ⟨a, n', ha⟩ := (ih hte hc).1 n
        exact ⟨_, _, .derefAddress ha⟩
  | sizeof he ih => cases h
  | call hn hs ih =>
    cases h with
    | call hf hlen _ hts =>
      refine ⟨fun n => ?_, nofun⟩
      have hargs := hasLines_arguments fun e he k => (ih e he (hts e he) (hc.deeper k)).1
      obtain ⟨a, n', ha⟩ := hargs n
      exact ⟨_, _, .call rfl hlen ha⟩
  | stmtExpr hs hl ih =>
    cases h with
    | stmtExpr hts =>
      obtain ⟨j, e, hl⟩ := hl
      refine ⟨fun n => ?_, nofun⟩
      have hitems := hasLines_statementValue hl fun x hx => ih x hx (hts x hx) hc
      obtain ⟨a, n', ha⟩ := hitems n
      exact ⟨_, _, .stmtExpr ha⟩
  | exprStmt he ih =>
    cases h with
    | exprStmt hte =>
      intro n
      obtain ⟨a, n', ha⟩ := (ih hte hc).1 n
      exact ⟨_, _, .exprStmt ha⟩
  | ret he ih =>
    intro n
    cases h with
    | retVoid => exact ⟨_, _, .retVoid⟩
    | ret hte =>
      obtain ⟨a, n', ha⟩ := (ih _ rfl hte hc).1 n
      exact ⟨_, _, .ret ha⟩
  | block hs ih =>
    cases h with
    | block hts =>
      intro n
      obtain ⟨a, n', ha⟩ := hasLines_statements (fun x hx => ih x hx (hts x hx) hc) n
      exact ⟨_, _, .block ha⟩
  | ifElse he hx hy ihe ihx ihy =>
    cases h with
    | ifElse hte htx hty =>
      intro n
      obtain ⟨a, n₁, ha⟩ := (ihe hte hc).1 (n + 1)
      obtain ⟨a', n₂, ha'⟩ := ihx htx hc n₁
      obtain ⟨a'', n₃, ha''⟩ := ihy hty hc n₂
      exact ⟨_, _, .ifElse ha ha' ha''⟩
  | whileLoop he hx ihe ihx =>
    cases h with
    | whileLoop hte htx =>
      intro n
      obtain ⟨a, n₁, ha⟩ := (ihe hte hc).1 (n + 1)
      obtain ⟨a', n₂, ha'⟩ := ihx htx (hc.body (n + 1)) n₁
      exact ⟨_, _, .whileLoop ha ha'⟩
  | forLoop hi he hu hx ihi ihe ihu ihx =>
    cases h with
    | forLoop hti hte htu htx =>
      intro n
      obtain ⟨f, n₁, hf⟩ := hasLines_optional (fun y hy => ihi y hy (hti y hy) hc) (n + 1)
      obtain ⟨a, n₂, ha⟩ := (ihe hte hc).1 n₁
      obtain ⟨a', n₃, ha'⟩ := ihx htx (hc.body (n + 1)) n₂
      obtain ⟨u, n₄, hu⟩ := hasLines_optional (fun y hy => ihu y hy (htu y hy) hc) n₃
      exact ⟨_, _, .forLoop hf ha ha' hu⟩
  | breakLoop =>
    obtain ⟨k, ks, hk, hd⟩ := hc.loop rfl
    exact fun n => ⟨_, _, .breakLoop hk hd⟩
  | continueLoop =>
    obtain ⟨k, ks, hk, hd⟩ := hc.loop rfl
    exact fun n => ⟨_, _, .continueLoop hk hd⟩
  | empty => exact fun n => ⟨_, _, .empty⟩

/-- As many parameters as there are registers can be stored. -/
theorem exists_spills {c : Context} {index : Nat} {ids : List VarId}
    (hlen : index + ids.length ≤ argumentRegs.length)
    (h : ∀ id ∈ ids, ∃ v w k, c.vars[id]? = some v ∧ Width.ofBytes? v.type.size = some w ∧
      c.frame.offset? id = some k) : ∃ ls, Spills c index ids ls := by
  induction ids generalizing index with
  | nil => exact ⟨[], .nil⟩
  | cons id ids ih =>
    rw [List.length_cons] at hlen
    obtain ⟨v, w, k, hv, hw, hk⟩ := h id List.mem_cons_self
    have hlen' : index + 1 + ids.length ≤ argumentRegs.length := by omega
    obtain ⟨ls, hls⟩ := ih hlen' fun x hx => h x (List.mem_cons_of_mem _ hx)
    have hr : argumentRegs[index]? = some argumentRegs[index] := List.getElem?_eq_getElem (by omega)
    exact ⟨_, .cons hv hw hr hk hls⟩

variable {p : Program} {f : Function} {body : Node}

/-- The context of a function knows all that its body may use. -/
theorem suits_ofFunction (hp : p.Valid) (hf : f.Defined p body) (loops : List Targets) (d : Nat) :
    Suits { Context.ofFunction p f with loops := loops } (f.names p) false d where
  locates id hid := by
    rcases hid with hl | hg
    · obtain ⟨x, hx, hlocal⟩ := hf.locals id hl
      obtain ⟨k, hk⟩ := Frame.offset?_isSome p.vars hl
      exact ⟨_, .onFrame hx hlocal hk⟩
    · obtain ⟨x, hx, hglobal⟩ := hp.globals id hg
      exact ⟨_, .inData hx hglobal⟩
  loop := nofun

/-- Every body of an elaborated program has lines. -/
theorem exists_emitsBody (hp : p.Elaborated) (hf : f ∈ p.functions) (hb : f.body = some body)
    (n : Nat) : ∃ ls n', EmitsBody p f body n ls n' := by
  have hd := hp.valid.bodies f hf body hb
  obtain ⟨t, ht, htyped⟩ := hp.typed f hf body hb
  have hlen : 0 + f.params.length ≤ argumentRegs.length := by
    rw [Nat.zero_add]
    exact hp.params f hf body hb
  obtain ⟨s, hs⟩ : ∃ ls, Spills (.ofFunction p f) 0 f.params ls := by
    refine exists_spills hlen fun id hid => ?_
    obtain ⟨v, hv, hscalar⟩ := hd.scalars id hid
    obtain ⟨w, hw⟩ := (hp.valid.types id v hv).width (CType.plain_of_scalar hscalar)
    obtain ⟨k, hk⟩ := Frame.offset?_isSome p.vars (hd.params.subset hid)
    exact ⟨v, w, k, hv, hw, hk⟩
  obtain ⟨b, n', hlines⟩ :=
    shaped_emittable hd.shaped ht htyped (suits_ofFunction hp.valid hd [] 0) n
  exact ⟨_, _, .intro hs hlines⟩

/-- So have all functions together. -/
theorem exists_emitsAll (hp : p.Elaborated) {fs : List Function} (hfs : fs ⊆ p.functions)
    (n : Nat) : ∃ ls n', EmitsAll p fs n ls n' := by
  induction fs generalizing n with
  | nil => exact ⟨_, _, .nil⟩
  | cons f fs ih =>
    obtain ⟨hf, hfs⟩ := List.cons_subset.mp hfs
    cases hb : f.body with
    | none =>
      obtain ⟨ls, n', h⟩ := ih hfs n
      exact ⟨_, _, .announced hb h⟩
    | some body =>
      obtain ⟨b, n₁, hbody⟩ := exists_emitsBody hp hf hb n
      obtain ⟨ls, n', h⟩ := ih hfs n₁
      exact ⟨_, _, .defined hb hbody h⟩

end Emission

theorem Program.Elaborated.emits {p : Program} (h : p.Elaborated) :
    ∃ lines, p.emit = .ok lines := by
  obtain ⟨ls, n, hs⟩ := Emission.exists_emitsAll h (List.Subset.refl _) 0
  exact ⟨_, emit_eq_ok.mpr ⟨ls, n, hs, rfl⟩⟩

end StackC
