import StackC.Proofs.Grammar.Programs
import StackC.Proofs.Typing.Parts

namespace StackC

namespace Node

/-- `Exposed e n`: the tree `e` stands in `n` outside of the bodies of the loops of `n`. -/
inductive Exposed (e : Node) : Node → Prop where
  | self : Exposed e e
  | child {n x} (hx : x ∈ n.header) (h : Exposed e x) : Exposed e n

def isJump : Node → Bool
  | breakLoop _ | continueLoop _ => true
  | _ => false

end Node

/-- A tree outside of all loops has no jump that is not inside of a loop of its own. -/
theorem Shaped.not_exposed {S : Names} {r : Role} {n e : Node} (h : Shaped S r false n)
    (he : e.isJump = true) : ¬e.Exposed n := by
  intro hexposed
  induction hexposed generalizing r with
  | self =>
    cases h with
    | _ => exact nomatch he
  | child hx _ ih =>
    obtain ⟨r', hx⟩ := h.header hx
    exact ih hx

structure Function.BodyScoped (p : Program) (f : Function) (body : Node) : Prop where
  below : ∀ i id, Node.Within (.var i id) body → id < p.vars.size
  vars : ∀ i id, Node.Within (.var i id) body → id ∈ f.locals ∨ id ∈ p.globals
  calls : ∀ i name args, Node.Within (.call i name args) body → ∃ h ∈ p.functions, h.name = name
  jumps : ∀ e : Node, e.isJump = true → ¬e.Exposed body
  values : ∀ i items, Node.Within (.stmtExpr i items) body →
    ∃ j e, items.getLast? = some (.exprStmt j e)

/-- Every variable belongs to one function or to the file, and bodies use what is in scope. -/
structure Program.WellScoped (p : Program) : Prop where
  globalsBelow : ∀ id ∈ p.globals, id < p.vars.size
  localsBelow : ∀ f ∈ p.functions, ∀ id ∈ f.params ++ f.locals, id < p.vars.size
  globalsNodup : p.globals.Nodup
  localsNodup : ∀ f ∈ p.functions, f.locals.Nodup
  localsApart : p.functions.Pairwise fun f h => f.locals.Disjoint h.locals
  notGlobal : ∀ f ∈ p.functions, f.locals.Disjoint p.globals
  globalStorage : ∀ id ∈ p.globals, ∃ x init, p.vars[id]? = some x ∧ x.storage = .global init
  localStorage : ∀ f ∈ p.functions, ∀ id ∈ f.locals, ∃ x, p.vars[id]? = some x ∧
    x.storage = .onFrame
  params : ∀ f ∈ p.functions, f.body.isSome = true → f.params <+: f.locals
  bodies : ∀ f ∈ p.functions, ∀ body, f.body = some body → f.BodyScoped p body

theorem Var.isLocal_eq_true {x : Var} : x.isLocal = true ↔ x.storage = .onFrame := by
  rw [isLocal, beq_iff_eq]

theorem Var.isLocal_eq_false {x : Var} : x.isLocal = false ↔ ∃ init, x.storage = .global init := by
  rw [← Bool.not_eq_true, isLocal_eq_true]
  cases x.storage <;> simp

namespace Program

variable {p : Program} {f : Function} {id : VarId}

theorem Valid.local_var (h : p.Valid) (hf : f ∈ p.functions) (hid : id ∈ f.locals) :
    ∃ x, p.vars[id]? = some x ∧ x.isLocal = true :=
  mem_locals (h.bodies f hf) (h.announced f hf) hid

theorem Valid.param_var (h : p.Valid) (hf : f ∈ p.functions) (hid : id ∈ f.params) :
    ∃ x, p.vars[id]? = some x ∧ x.isLocal = true := by
  cases hb : f.body with
  | none => exact (h.announced f hf hb).params id hid
  | some body =>
    have hd := h.bodies f hf body hb
    exact hd.locals id (hd.params.subset hid)

/-- A body uses the locals of its function, the global variables and the declared functions only. -/
theorem Valid.bodyScoped (h : p.Valid) (hf : f ∈ p.functions) {body : Node}
    (hb : f.body = some body) : f.BodyScoped p body := by
  have hshaped := (h.bodies f hf body hb).shaped
  have hvars : ∀ i id, Node.Within (.var i id) body → id ∈ f.locals ∨ id ∈ p.globals := by
    intro i id hw
    obtain ⟨r, b, hs⟩ := hshaped.within hw
    cases hs with
    | var hv => exact hv
  refine ⟨?_, hvars, ?_, fun e he => hshaped.not_exposed he, ?_⟩
  · intro i id hw
    rcases hvars i id hw with hid | hid
    · obtain ⟨x, hx, -⟩ := h.local_var hf hid
      exact View.lt_of_var hx
    · obtain ⟨x, hx, -⟩ := h.globals id hid
      exact View.lt_of_var hx
  · intro i name args hw
    obtain ⟨r, b, hs⟩ := hshaped.within hw
    cases hs with
    | call hn _ => exact function?_isSome.mp hn
  · intro i items hw
    obtain ⟨r, b, hs⟩ := hshaped.within hw
    cases hs with
    | stmtExpr _ hl => exact hl

/-- Well-formed programs are well scoped. -/
theorem Valid.wellScoped (h : p.Valid) : p.WellScoped where
  globalsBelow id hid := by
    obtain ⟨x, hx, -⟩ := h.globals id hid
    exact View.lt_of_var hx
  localsBelow f hf id hid := by
    have hx : ∃ x, p.vars[id]? = some x ∧ x.isLocal = true := by
      rcases List.mem_append.mp hid with hid | hid
      · exact h.param_var hf hid
      · exact h.local_var hf hid
    obtain ⟨x, hx, -⟩ := hx
    exact View.lt_of_var hx
  globalsNodup := h.globalsNodup
  localsNodup f hf := by
    cases hb : f.body with
    | none =>
      rw [(h.announced f hf hb).locals]
      exact List.nodup_nil
    | some body => exact (h.bodies f hf body hb).nodup
  localsApart := h.apart
  notGlobal f hf id hl hg := by
    -- The same variable would live on a frame and among the data.
    obtain ⟨x, hx, hlocal⟩ := h.local_var hf hl
    obtain ⟨y, hy, hglobal⟩ := h.globals id hg
    cases hx.symm.trans hy
    rw [hlocal] at hglobal
    exact absurd hglobal (by decide)
  globalStorage id hid := by
    obtain ⟨x, hx, hg⟩ := h.globals id hid
    obtain ⟨init, hs⟩ := Var.isLocal_eq_false.mp hg
    exact ⟨x, init, hx, hs⟩
  localStorage f hf id hid := by
    obtain ⟨x, hx, hl⟩ := h.local_var hf hid
    exact ⟨x, hx, Var.isLocal_eq_true.mp hl⟩
  params f hf hb := by
    obtain ⟨body, hb⟩ := Option.isSome_iff_exists.mp hb
    exact (h.bodies f hf body hb).params
  bodies f hf body hb := h.bodyScoped hf hb

end Program

/-- Programs that are read from a source text are well scoped. -/
theorem parse_wellScoped {source : String} {p : Program} (h : parse source = .ok p) :
    p.WellScoped := by
  rcases parse_cases source with ⟨q, hq, hvalid⟩ | ⟨e, he, -⟩
  · cases hq.symm.trans h
    exact hvalid.wellScoped
  · cases he.symm.trans h

/-- A function that is announced and defined later, with declarations in the head of a loop and
inside of an expression, and a string literal. -/
def nestedSource : String :=
  "int x; int f(int a, int b); int g() \x7b return f(x, 2); \x7d
  int f(int c, int d) \x7b
    for (int i = 0; i < c; i++) x = (\x7b int k = i; if (k == d) break; k; \x7d);
    char *s = \"!\"; return x; \x7d"

/-- The parameters of the announcement are variables of no function, and the string literal is one
of the file. -/
theorem parse_wellScoped_nested :
    ∃ p, parse nestedSource = .ok p ∧ p.vars.size = 9 ∧ p.globals = [0, 8] ∧
      p.functions.map (·.locals) = [[3, 4, 5, 6, 7], []] ∧
      p.functions.map (·.params) = [[3, 4], []] ∧ p.WellScoped := by
  have hcheck : (parse nestedSource).toOption.any (fun p => p.vars.size = 9 ∧ p.globals = [0, 8] ∧
      p.functions.map (·.locals) = [[3, 4, 5, 6, 7], []] ∧
      p.functions.map (·.params) = [[3, 4], []]) = true := by
    decide +kernel
  obtain ⟨p, hp, hp'⟩ := exists_of_any hcheck
  obtain ⟨hsize, hglobals, hlocals, hparams⟩ := of_decide_eq_true hp'
  exact ⟨p, hp, hsize, hglobals, hlocals, hparams, parse_wellScoped hp⟩

end StackC
