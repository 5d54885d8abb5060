import StackC.Proofs.Program.Valid
import StackC.Proofs.Typing.Parts

namespace StackC

namespace Typing

variable {c : Context}

/-- An operand that has to be a scalar, and what is made of it. -/
theorem yields_scalar {α : Type} {n n' : Node} {fault : CType → TypingFault}
    {k : Node → Except Diagnostic α} {Q : α → Prop} (h : Elaborates c n n')
    (hk : ∀ e, Operand c n e → e.Has CType.isScalar → Yields (k e) Q) :
    Yields (decay n' >>= fun e => scalarValue fault e >>= k) Q := by
  refine .bind (yields_decay h) fun e he => .bind (yields_scalarValue fault e) ?_
  rintro _ ⟨rfl, ht⟩
  exact hk _ he ht

theorem typed_of_forall₂ {ns ns' : List Node} (h : List.Forall₂ (Elaborates c) ns ns') :
    ∀ x ∈ ns', Typed c x := by
  intro x hx
  obtain ⟨y, -, hy⟩ := Lists.exists_left_of_forall₂ h hx
  exact hy.typed

theorem shaped_of_forall₂ {S : Names} {r : Role} {b : Bool} {ns ns' : List Node}
    (h : List.Forall₂ (Elaborates c) ns ns') (hs : ∀ x ∈ ns, Shaped S r b x) :
    ∀ x ∈ ns', Shaped S r b x := by
  intro x hx
  obtain ⟨y, hy, hxy⟩ := Lists.exists_left_of_forall₂ h hx
  exact hxy.shaped _ _ _ (hs y hy)

mutual

/-- The elaboration of a tree gives a typed tree of the same shape. -/
theorem yields_elaborate (c : Context) (n : Node) : Yields (elaborate c n) (Elaborates c n) :=
  match n with
  | .num i v => by
    refine .ok ⟨.num ?_, fun | _, _, _, .num => .num, nofun⟩
    split
    · exact .inl rfl
    · exact .inr rfl
  | .var i id => by
    rw [elaborate]
    split
    · next x hx => exact .ok ⟨.var hx, fun | _, _, _, .var hv => .var hv, nofun⟩
    · exact .error (located_typing _ _)
  | .member i b name m => by
    refine .bind (yields_elaborate c b) fun b' hb => .bind (yields_typeOf b') fun t ht => ?_
    split
    · exact .throw (located_typing _ _)
    · split
      · exact .throw (located_typing _ _)
      · next hr =>
        split
        · exact .throw (located_typing _ _)
        · next m hm =>
          exact .pure ⟨.member hb.typed (by simpa using hr) ht hm,
            fun | _, _, _, .member he => .member (hb.shaped _ _ _ he), nofun⟩
  | .binary i op l r =>
    .bind (yields_elaborate c l) fun _ hl => .bind (yields_decay hl) fun _ hl =>
    .bind (yields_elaborate c r) fun _ hr => .bind (yields_decay hr) fun _ hr =>
    (yields_binary op i.place hl.typed hr.typed).mono fun _ h =>
      ⟨h.typed, fun | _, _, _, .binary hx hy => h.shaped _ _ (hl.shaped _ _ hx) (hr.shaped _ _ hy),
        nofun⟩
  | .not i e =>
    .bind (yields_elaborate c e) fun _ he => .bind (yields_decay he) fun e' he =>
    .bind (yields_requireScalar e' _) fun _ ht =>
    .pure ⟨.not he.typed ht, fun | _, _, _, .not hx => .not (he.shaped _ _ hx), nofun⟩
  | .assign i l r => by
    refine .bind (yields_elaborate c l) fun l' hl => .bind (yields_targetType l') fun t ht =>
      .bind (yields_elaborate c r) fun _ hr => yields_scalar hr fun r' hr hs => ?_
    obtain ⟨href, ht, hplain⟩ := ht
    exact .pure ⟨.assign hl.typed hr.typed href ht hplain hs,
      fun | _, _, _, .assign hx hy => .assign (hl.shaped _ _ _ hx) (hr.shaped _ _ hy), nofun⟩
  | .ternary i e x y => by
    refine .bind (yields_elaborate c e) fun _ he => yields_scalar he fun e' he hs => ?_
    refine .bind (yields_elaborate c x) fun _ hx => .bind (yields_decay hx) fun x' hx =>
      .bind (yields_elaborate c y) fun _ hy => .bind (yields_decay hy) fun y' hy =>
      .bind (yields_branchType x' y' _) ?_
    rintro v ⟨t, u, ht, hu, hv⟩
    exact .pure ⟨.ternary he.typed hx.typed hy.typed hs ht hu hv, fun
      | _, _, _, .ternary h₁ h₂ h₃ =>
        .ternary (he.shaped _ _ h₁) (hx.shaped _ _ h₂) (hy.shaped _ _ h₃), nofun⟩
  | .addr i e => by
    refine .bind (yields_elaborate c e) fun e' he => ?_
    unfold address
    split
    · exact .throw (located_typing _ _)
    · next hr =>
      refine .bind (yields_typeOf e') fun t ht => ?_
      exact .pure ⟨.addr he.typed (by simpa using hr) ht,
        fun | _, _, _, .addr hx => .addr (he.shaped _ _ _ hx), nofun⟩
  | .deref i e => by
    refine .bind (yields_elaborate c e) fun _ he => .bind (yields_decay he) fun e' he =>
      .bind (yields_typeOf e') fun t ht => ?_
    split
    · split
      · exact .throw (located_typing _ _)
      · next hv =>
        exact .pure ⟨.deref he.typed ht (Bool.eq_false_iff.mpr hv),
          fun | _, _, _, .deref hx => .deref (he.shaped _ _ hx), nofun⟩
    · exact .throw (located_typing _ _)
  | .sizeof i e => by
    refine .bind (yields_elaborate c e) fun e' _ => .bind (yields_typeOf e') fun t _ => ?_
    split
    · exact .throw (located_typing _ _)
    · exact .pure ⟨typed_sizeLiteral _ _, fun | _, _, _, .sizeof _ => .num, nofun⟩
  | .call i name args => by
    refine .bind (yields_callType name args.length _) ?_
    rintro t ⟨f, hf, hn, rfl, ha⟩
    refine .bind (yields_elaborateArguments c args) fun args' hs => ?_
    have hlen := hs.length_eq
    refine .pure ⟨.call hf (hlen ▸ hn) (hlen ▸ ha) (fun e he => ?_) (fun e he => ?_), ?_, nofun⟩
    · obtain ⟨x, -, h, -⟩ := Lists.exists_left_of_forall₂ hs he
      exact h.typed
    · obtain ⟨x, -, -, h⟩ := Lists.exists_left_of_forall₂ hs he
      exact h
    · intro S r b h
      cases h with
      | call hg hx =>
        refine .call hg fun e he => ?_
        obtain ⟨x, hmem, h, -⟩ := Lists.exists_left_of_forall₂ hs he
        exact h.shaped _ _ (hx x hmem)
  | .stmtExpr i items => by
    refine .bind (yields_elaborateAll c items) fun items' hs =>
      .pure ⟨.stmtExpr (typed_of_forall₂ hs), ?_, nofun⟩
    intro S r b h
    cases h with
    | stmtExpr hx hl =>
      obtain ⟨j, e, hl⟩ := hl
      obtain ⟨y, hy, h⟩ := Lists.getLast?_of_forall₂ hs hl
      obtain ⟨k, e', rfl⟩ := h.exprStmt j e rfl
      exact .stmtExpr (shaped_of_forall₂ hs hx) ⟨k, e', hy⟩
  | .exprStmt i e =>
    .bind (yields_elaborate c e) fun _ he => .bind (yields_decay he) fun e' he =>
    .bind (yields_typeOf e') fun t ht =>
    .pure ⟨.exprStmt he.typed ht, fun | _, _, _, .exprStmt hx => .exprStmt (he.shaped _ _ hx),
      fun _ _ _ => ⟨_, _, rfl⟩⟩
  | .ret i none => .pure ⟨.retVoid, fun | _, _, _, .ret _ => .ret nofun, nofun⟩
  | .ret i (some e) => by
    refine .bind (yields_elaborate c e) fun _ he => .bind (yields_decay he) fun e' he =>
      .bind (yields_returnedValue e') ?_
    rintro _ ⟨rfl, ht⟩
    refine .pure ⟨.ret he.typed ht, ?_, nofun⟩
    intro S r b h
    cases h with
    | ret hx =>
      refine .ret ?_
      rintro _ ⟨⟩
      exact he.shaped _ _ (hx e rfl)
  | .block i items =>
    .bind (yields_elaborateAll c items) fun _ hs => .pure ⟨.block (typed_of_forall₂ hs),
      fun | _, _, _, .block hx => .block (shaped_of_forall₂ hs hx), nofun⟩
  | .ifElse i e x y => by
    refine .bind (yields_elaborate c e) fun _ he => yields_scalar he fun e' he hs => ?_
    refine .bind (yields_elaborate c x) fun x' hx => .bind (yields_elaborate c y) fun y' hy => ?_
    exact .pure ⟨.ifElse he.typed hx.typed hy.typed hs, fun
      | _, _, _, .ifElse h₁ h₂ h₃ =>
        .ifElse (he.shaped _ _ h₁) (hx.shaped _ _ _ h₂) (hy.shaped _ _ _ h₃), nofun⟩
  | .whileLoop i e x => by
    refine .bind (yields_elaborate c e) fun _ he => yields_scalar he fun e' he hs => ?_
    refine .bind (yields_elaborate c x) fun x' hx => ?_
    exact .pure ⟨.whileLoop he.typed hx.typed hs, fun
      | _, _, _, .whileLoop h₁ h₂ => .whileLoop (he.shaped _ _ h₁) (hx.shaped _ _ _ h₂), nofun⟩
  | .forLoop i init e update x => by
    refine .bind (yields_elaborateOption c init) fun init' hi =>
      .bind (yields_elaborate c e) fun _ he => yields_scalar he fun e' he hs => ?_
    refine .bind (yields_elaborateOption c update) fun update' hu =>
      .bind (yields_elaborate c x) fun x' hx => .pure ⟨?_, ?_, nofun⟩
    · refine .forLoop (fun n hn => ?_) he.typed (fun n hn => ?_) hx.typed hs
      · obtain ⟨m, -, h⟩ := hi n hn
        exact h.typed
      · obtain ⟨m, -, h⟩ := hu n hn
        exact h.typed
    · intro S r b h
      cases h with
      | forLoop h₁ h₂ h₃ h₄ =>
        refine .forLoop (fun n hn => ?_) (he.shaped _ _ h₂) (fun n hn => ?_) (hx.shaped _ _ _ h₄)
        · obtain ⟨m, hm, h⟩ := hi n hn
          exact h.shaped _ _ _ (h₁ m hm)
        · obtain ⟨m, hm, h⟩ := hu n hn
          exact h.shaped _ _ _ (h₃ m hm)
  | .breakLoop i => .ok ⟨.breakLoop, fun | _, _, _, .breakLoop => .breakLoop, nofun⟩
  | .continueLoop i => .ok ⟨.continueLoop, fun | _, _, _, .continueLoop => .continueLoop, nofun⟩
  | .empty i => .ok ⟨.empty, fun | _, _, _, .empty => .empty, nofun⟩
termination_by structural n

theorem yields_elaborateAll (c : Context) (ns : List Node) :
    Yields (elaborateAll c ns) (List.Forall₂ (Elaborates c) ns) :=
  match ns with
  | [] => .ok .nil
  | n :: ns =>
    .bind (yields_elaborate c n) fun _ hn => .bind (yields_elaborateAll c ns) fun _ hs =>
    .pure (.cons hn hs)
termination_by structural ns

theorem yields_elaborateArguments (c : Context) (ns : List Node) :
    Yields (elaborateArguments c ns)
      (List.Forall₂ (fun n n' => Operand c n n' ∧ n'.Has CType.isScalar) ns) :=
  match ns with
  | [] => .ok .nil
  | n :: ns => by
    refine .bind (yields_elaborate c n) fun _ hn => yields_scalar hn fun _ hn ht => ?_
    exact .bind (yields_elaborateArguments c ns) fun _ hs => .pure (.cons ⟨hn, ht⟩ hs)
termination_by structural ns

theorem yields_elaborateOption (c : Context) (n : Option Node) :
    Yields (elaborateOption c n) fun n' => ∀ y ∈ n', ∃ x ∈ n, Elaborates c x y :=
  match n with
  | none => .ok nofun
  | some n =>
    .bind (yields_elaborate c n) fun _ hn => .pure fun | _, rfl => ⟨n, rfl, hn⟩
termination_by structural n

end

structure Context.Sound (c : Context) : Prop where
  vars : ∀ (id : VarId) (x : Var), c.program.var? id = some x → x.type.Sound
  returns : ∀ name f, c.program.function? name = some f → f.returnType.Sound

/-- A property of types that holds of the primitive types, of pointers to a type that has it, and of
the parts of such a type. -/
structure Inherited (P : CType → Prop) : Prop where
  primitive : ∀ k, P (.ofPrimitive k)
  pointerTo : ∀ t, P t → P t.pointerTo
  base : ∀ b n, P (.pointer b n) → P b
  element : ∀ b len n, P (.array b len n) → P b
  member : ∀ t name m, P t → t.member? name = some m → P m.type

/-- The type of the last item is inherited. -/
theorem Inherited.lastType {P : CType → Prop} (hP : Inherited P) {items : List Node}
    (h : ∀ x ∈ items, ∃ t, x.type? = some t ∧ P t) : P (lastType items) := by
  unfold Typing.lastType
  cases hl : items.getLast? with
  | none => exact hP.primitive .void
  | some x =>
    obtain ⟨t, ht, hs⟩ := h x (List.mem_of_getLast? hl)
    simpa [ht] using hs

/-- The types of expressions inherit what holds of the types of variables and of results. -/
theorem Typed.inherits {P : CType → Prop} (hP : Inherited P)
    (hvars : ∀ (id : VarId) (x : Var), c.program.var? id = some x → P x.type)
    (hreturns : ∀ name f, c.program.function? name = some f → P f.returnType) {n : Node}
    (h : Typed c n) : ∃ t, n.type? = some t ∧ P t := by
  have hvoid : P .void := hP.primitive .void
  have hint : P .int := hP.primitive .int
  have hlong : P .long := hP.primitive .long
  induction h with
  | num ht => exact ⟨_, rfl, by rcases ht with rfl | rfl <;> assumption⟩
  | var hx => exact ⟨_, rfl, hvars _ _ hx⟩
  | member hb hr ht hm ih =>
    obtain ⟨u, hu, hs⟩ := ih
    cases hu.symm.trans ht
    exact ⟨_, rfl, hP.member _ _ _ hs hm⟩
  | integer | logical | not => exact ⟨_, rfl, hint⟩
  | offset hop hl hr hlt hrt ihl ihr =>
    obtain ⟨u, hu, hs⟩ := ihl
    cases hu.symm.trans hlt
    exact ⟨_, rfl, hs⟩
  | distance => exact ⟨_, rfl, hlong⟩
  | assign hl hr hlr hlt ht hrt ihl ihr =>
    obtain ⟨u, hu, hs⟩ := ihl
    cases hu.symm.trans hlt
    exact ⟨_, rfl, hs⟩
  | ternary he hx hy het hxt hyt hv ihe ihx ihy =>
    rcases hv with ⟨-, rfl⟩ | ⟨-, rfl⟩
    · exact ⟨_, rfl, hint⟩
    · obtain ⟨u, hu, hs⟩ := ihx
      cases hu.symm.trans hxt
      exact ⟨_, rfl, hs⟩
  | addr he hr ht ih =>
    obtain ⟨u, hu, hs⟩ := ih
    cases hu.symm.trans ht
    exact ⟨_, rfl, hP.pointerTo _ hs⟩
  | decayed he hr ht ih =>
    obtain ⟨u, hu, hs⟩ := ih
    cases hu.symm.trans ht
    exact ⟨_, rfl, hP.pointerTo _ (hP.element _ _ _ hs)⟩
  | deref he het ht ih =>
    obtain ⟨u, hu, hs⟩ := ih
    cases hu.symm.trans het
    exact ⟨_, rfl, hP.base _ _ hs⟩
  | call hf hn ha hs ht ih => exact ⟨_, rfl, hreturns _ _ hf⟩
  | stmtExpr hs ih => exact ⟨_, rfl, hP.lastType ih⟩
  | exprStmt he ht ih =>
    obtain ⟨u, hu, hs⟩ := ih
    cases hu.symm.trans ht
    exact ⟨_, rfl, hs⟩
  | block hs ih => exact ⟨_, rfl, hP.lastType ih⟩
  | retVoid | ret | ifElse | whileLoop | forLoop | breakLoop | continueLoop | empty =>
    exact ⟨_, rfl, hvoid⟩

/-- Soundness is inherited by all types that occur in a program. -/
theorem inherited_sound : Inherited CType.Sound where
  primitive := CType.sound_ofPrimitive
  pointerTo _ h := h.pointerTo
  base _ _ h := h.base
  element _ _ _ h := h.element.1
  member _ _ _ h hm := h.member hm

theorem Typed.sound (hc : c.Sound) {n : Node} (h : Typed c n) : ∃ t, n.type? = some t ∧ t.Sound :=
  h.inherits inherited_sound hc.vars hc.returns

structure ElaboratesFunction (p : Program) (f f' : Function) : Prop where
  name : f'.name = f.name
  returnType : f'.returnType = f.returnType
  params : f'.params = f.params
  locals : f'.locals = f.locals
  variadic : f'.variadic = f.variadic
  announced : f'.body = none → f.body = none
  bodies : ∀ body', f'.body = some body' → f'.params.length ≤ maxArguments ∧
    Typed ⟨p, f'.returnType⟩ body' ∧
    ∃ body, f.body = some body ∧ (f.Defined p body → f'.Defined p body')

/-- A function is elaborated by elaborating its body. -/
theorem yields_elaborateFunction (p : Program) (f : Function) :
    Yields (elaborateFunction p f) (ElaboratesFunction p f) := by
  unfold elaborateFunction
  split
  · next hb => exact .ok ⟨rfl, rfl, rfl, rfl, rfl, fun _ => hb,
      fun body' h => nomatch hb.symm.trans h⟩
  · next body hb =>
    split
    · exact .error (located_declaration _ _)
    · next hn =>
      refine .bind (yields_elaborate _ body) fun body' h => .bind (yields_decay_cases body') ?_
      rintro body'' hd
      refine .pure ⟨rfl, rfl, rfl, rfl, rfl, (fun h => absurd h (Option.some_ne_none _)), ?_⟩
      rintro _ ⟨⟩
      refine ⟨Nat.not_lt.mp hn, ?_, body, hb, fun hf => ?_⟩
      · rcases hd with rfl | ⟨hr, _, _, _, ht, rfl⟩
        · exact h.typed
        · exact .decayed h.typed hr ht
      · have hs := h.shaped _ _ _ hf.shaped
        rcases hd with rfl | ⟨hr, -⟩
        · exact { hf with shaped := hs }
        · exact nomatch hs.isReferable_eq_false.symm.trans hr

theorem yields_mapM {α β : Type} {g : α → Except Diagnostic β} {R : α → β → Prop} {l : List α}
    (h : ∀ a ∈ l, Yields (g a) (R a)) : Yields (l.mapM g) (List.Forall₂ R l) := by
  induction l with
  | nil => exact .pure .nil
  | cons a l ih =>
    rw [List.mapM_cons]
    refine .bind (h a List.mem_cons_self) fun b hb => ?_
    exact .bind (ih fun a ha => h a (List.mem_cons_of_mem _ ha)) fun bs hbs => .pure (.cons hb hbs)

end Typing

namespace Program

def accepts (p : Program) (name : String) (count : Nat) : Bool :=
  match p.function? name with
  | none => false
  | some f => if f.variadic then f.params.length ≤ count else f.params.length == count

/-- A well-formed program with typed bodies, each with parameters that registers can hold, in which
calls have as many arguments as the functions take. -/
structure Elaborated (p : Program) : Prop where
  valid : p.Valid
  params : ∀ f ∈ p.functions, ∀ body, f.body = some body → f.params.length ≤ maxArguments
  typed : ∀ f ∈ p.functions, ∀ body, f.body = some body →
    ∃ c : Typing.Context, c.Sound ∧ Typing.Typed c body
  calls : ∀ f ∈ p.functions, ∀ body, f.body = some body → ∀ i name args,
    Node.Within (.call i name args) body → p.accepts name args.length = true

theorem Valid.sound {p : Program} (h : p.Valid) (t : CType) : Typing.Context.Sound ⟨p, t⟩ where
  vars := h.types
  returns _ f hf := h.returns f (function?_eq_some hf).1

theorem names_of_forall₂ {p : Program} {fs fs' : List Function}
    (h : List.Forall₂ (Typing.ElaboratesFunction p) fs fs') :
    fs'.map (·.name) = fs.map (·.name) := by
  induction h with
  | nil => rfl
  | cons hf _ ih => rw [List.map_cons, List.map_cons, hf.name, ih]

/-- A typed call has as many arguments as the function takes. -/
theorem accepts_of_typed {p : Program} {fs : List Function}
    (hfs : List.Forall₂ (Typing.ElaboratesFunction p) p.functions fs) {t : CType} {i : Info}
    {name : String} {args : List Node} (h : Typing.Typed ⟨p, t⟩ (.call i name args)) :
    accepts { p with functions := fs } name args.length = true := by
  cases h with
  | @call _ _ _ f hf _ ha =>
    obtain ⟨f', hf', he⟩ := Lists.find?_of_forall₂ (List.forall₂_reverse_iff.mpr hfs)
      (q := (·.name == name)) (fun f f' he => by rw [he.name]) hf
    have hfind : function? { p with functions := fs } name = some f' := hf'
    rw [accepts, hfind]
    simp only [he.variadic, he.params]
    split
    · next hv =>
      rw [if_pos hv] at ha
      exact decide_eq_true ha
    · next hv =>
      rw [if_neg hv] at ha
      exact beq_iff_eq.mpr ha.symm

/-- A valid program with elaborated bodies is elaborated. -/
theorem Valid.elaborated {p : Program} (h : p.Valid) {fs : List Function}
    (hfs : List.Forall₂ (Typing.ElaboratesFunction p) p.functions fs) :
    Elaborated { p with functions := fs } := by
  have hnames := names_of_forall₂ hfs
  have hext : Extends { p with functions := fs } p := by
    refine extends_of_names fun name hn => ?_
    have hm : name ∈ fs.map (·.name) := hnames ▸ List.mem_map.mpr hn
    exact List.mem_map.mp hm
  refine ⟨⟨h.types, h.globals, h.globalsNodup, hnames ▸ h.names, ?_, ?_, ?_, ?_⟩, ?_, ?_, ?_⟩
  · intro f' hf'
    obtain ⟨f, hf, he⟩ := Lists.exists_left_of_forall₂ hfs hf'
    exact he.returnType ▸ h.returns f hf
  · intro f' hf' body' hb'
    obtain ⟨f, hf, he⟩ := Lists.exists_left_of_forall₂ hfs hf'
    obtain ⟨-, -, body, hb, hd⟩ := he.bodies body' hb'
    exact (hd (h.bodies f hf body hb)).extend hext
  · intro f' hf' hb'
    obtain ⟨f, hf, he⟩ := Lists.exists_left_of_forall₂ hfs hf'
    have ha := (h.announced f hf (he.announced hb')).extend hext
    exact ⟨he.locals.trans ha.locals, he.params ▸ ha.params⟩
  · refine Lists.pairwise_of_forall₂ hfs (fun _ _ _ _ he hh hapart => ?_) h.apart
    rw [Function.Apart, he.locals, hh.locals]
    exact hapart
  · intro f' hf' body' hb'
    obtain ⟨f, -, he⟩ := Lists.exists_left_of_forall₂ hfs hf'
    exact (he.bodies body' hb').1
  · intro f' hf' body' hb'
    obtain ⟨f, -, he⟩ := Lists.exists_left_of_forall₂ hfs hf'
    exact ⟨_, h.sound _, (he.bodies body' hb').2.1⟩
  · intro f' hf' body' hb' i name args hw
    obtain ⟨f, -, he⟩ := Lists.exists_left_of_forall₂ hfs hf'
    exact accepts_of_typed hfs ((he.bodies body' hb').2.1.within hw)

theorem Valid.yields_elaborate {p : Program} (h : p.Valid) : Yields p.elaborate Elaborated :=
  .bind (Typing.yields_mapM fun f _ => Typing.yields_elaborateFunction p f) fun _ hfs =>
    .pure (h.elaborated hfs)

end Program

end StackC
