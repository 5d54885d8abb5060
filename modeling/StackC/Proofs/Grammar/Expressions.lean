import StackC.Proofs.Grammar.Types

namespace StackC

open Parse View

abbrev Parse.Reads (r : Role) (n : Node) (w : View) : Prop := w.Shapes r n

theorem Parse.reads_mono {r : Role} (n : Node) (v w : View) (h : v.Leads w) (hn : Reads r n v) :
    Reads r n w :=
  h.shapes hn

structure Grammar.Sound (g : Grammar) : Prop where
  baseType : ∀ v : View, v.Valid → Keeps Retags g.baseType v fun t _ => t.Built
  assignment : ∀ v : View, v.Valid → Keeps Leads g.assignment v (Reads .expression)
  ternary : ∀ v : View, v.Valid → Keeps Leads g.ternary v (Reads .expression)
  unary : ∀ v : View, v.Valid → Keeps Leads g.unary v (Reads .expression)
  initializer : ∀ v : View, v.Valid →
    Keeps Leads g.initializer v fun i w => i.All (w.Shapes .expression)
  statement : ∀ v : View, v.Valid → Keeps Leads g.statement v (Reads .statement)
  items : ∀ v : View, v.Valid →
    Keeps Leads g.items v fun ns w => ∀ n ∈ ns, Reads .statement n w

/-- Readers that always fail are sound. -/
theorem Grammar.sound_exhausted : Grammar.exhausted.Sound where
  baseType _ _ := .calm_bind calm_next fun _ _ => keeps_grammarFault _
  assignment _ _ := .calm_bind calm_next fun _ _ => keeps_grammarFault _
  ternary _ _ := .calm_bind calm_next fun _ _ => keeps_grammarFault _
  unary _ _ := .calm_bind calm_next fun _ _ => keeps_grammarFault _
  initializer _ _ := .calm_bind calm_next fun _ _ => keeps_grammarFault _
  statement _ _ := .calm_bind calm_next fun _ _ => keeps_grammarFault _
  items _ _ := keeps_grammarFault _

namespace Parse

variable {g : Grammar} {v : View}

/-- The target stands in two places of the tree and is well formed in both. -/
theorem keeps_update_target (hv : v.Valid) (op : BinaryOp) {target value : Node} (p : Location)
    (ht : v.Shapes .expression target) (hx : v.Shapes .expression value) :
    Keeps Leads (update op target value p) v (Reads .expression) := by
  unfold update
  split
  · exact keeps_typingFault _ _
  · exact .pure (.refl hv) (.assign ht (.binary ht hx))

theorem keeps_applyPrefix (hv : v.Valid) (mark : PrefixMark) (p : Location) {e : Node}
    (he : v.Shapes .expression e) :
    Keeps Leads (applyPrefix mark p e) v (Reads .expression) := by
  cases mark with
  | plus => exact .pure (.refl hv) he
  | minus => exact .pure (.refl hv) (.binary .num he)
  | address => exact .pure (.refl hv) (.addr he)
  | indirection => exact .pure (.refl hv) (.deref he)
  | negation => exact .pure (.refl hv) (.not he)
  | increment => exact keeps_update_target hv _ p he .num
  | decrement => exact keeps_update_target hv _ p he .num
  | size => exact .pure (.refl hv) (.sizeof he)

theorem keeps_sizeOfType (hg : g.Sound) (hv : v.Valid) (p : Location) :
    Keeps Leads (sizeOfType g p) v (Reads .expression) := by
  refine .calm_bind calm_advance fun _ _ => ?_
  refine .bind evolution_leads (keeps_typeName hg.baseType hv).leads fun t w hw _ => ?_
  refine .calm_bind (calm_expect _ _) fun _ _ => ?_
  split
  · exact keeps_typingFault _ _
  · exact .pure (.refl hw.valid) .num

/-- An operator behind an operand gives a well-formed expression. -/
theorem keeps_applyPostfix (hg : g.Sound) (hv : v.Valid) (mark : PostfixMark) (p : Location)
    {e : Node} (he : v.Shapes .expression e) :
    Keeps Leads (applyPostfix g mark p e) v (Reads .expression) := by
  cases mark with
  | subscript =>
    refine .bind evolution_leads (hg.assignment v hv) fun index w hw hi => ?_
    exact .calm_bind (calm_expect _ _) fun _ _ =>
      .pure (.refl hw.valid) (.deref (.binary (hw.shapes he) hi))
  | dot => exact .calm_bind calm_identifier fun _ _ => .pure (.refl hv) (.member he)
  | arrow => exact .calm_bind calm_identifier fun _ _ => .pure (.refl hv) (.member (.deref he))
  | increment =>
    exact .bind evolution_leads (keeps_update_target hv _ p he .num) fun u w hw hu =>
      .pure (.refl hw.valid) (.binary hu .num)
  | decrement =>
    exact .bind evolution_leads (keeps_update_target hv _ p he .num) fun u w hw hu =>
      .pure (.refl hw.valid) (.binary hu .num)

/-- A call names a function that is declared. -/
theorem keeps_call (hg : g.Sound) (hv : v.Valid) (name : String) (p : Location) :
    Keeps Leads (call g name p) v (Reads .expression) := by
  refine .get_bind fun s hs => ?_
  split
  · exact keeps_declarationFault _ _
  · next hf =>
    have hn : v.names.functions name := by
      rw [← hs]
      exact Option.isSome_iff_ne_none.mpr fun he =>
        hf (Option.isNone_iff_eq_none.mpr he)
    refine .calm_bind (calm_accept _) fun b _ => ?_
    split
    · exact .pure (.refl hv) (.call hn (by simp))
    · refine .bind evolution_leads (keeps_separated (Q := Reads .expression) evolution_leads
        reads_mono (.refl hv) fun w hw => hg.assignment w hw.valid) fun args w hw ha => ?_
      exact .calm_bind (calm_expect _ _) fun _ _ =>
        .pure (.refl hw.valid) (.call (hw.function hn) ha)

/-- The scopes that a tree was read in do not matter once it has been read. -/
theorem shapes_left {w : View} {r : Role} {n : Node} (h : w.Shapes r n) : w.left.Shapes r n := h

/-- The items are read in a scope of their own, and the last of them is an expression. -/
theorem keeps_statementExpression (hg : g.Sound) (hv : v.Valid) (p : Location) :
    Keeps Leads (statementExpression g p) v (Reads .expression) := by
  refine .bind evolution_leads (Q := fun ns w => ∀ n ∈ ns, Reads .statement n w)
    (keeps_inScope hv (hg.items _ hv.entered) fun ns w _ h n hn => shapes_left (h n hn))
    fun items w hw hi => ?_
  refine .calm_bind (calm_expect _ _) fun _ _ => ?_
  split
  · next hl => exact .pure (.refl hw.valid) (.stmtExpr hi ⟨_, _, hl⟩)
  · exact .throw (located_grammar _ _)

/-- A name stands for a variable that is in scope. -/
theorem keeps_namedVariable (hv : v.Valid) (name : String) (p : Location) :
    Keeps Leads (namedVariable name p) v (Reads .expression) := by
  refine .get_bind fun s hs => ?_
  cases hid : s.scopes.var? name with
  | none => exact keeps_declarationFault _ _
  | some id =>
    rw [show s.scopes = v.scopes from congrArg View.scopes hs] at hid
    exact .pure (.refl hv) (.var (hv.var_of_find hid))

/-- Literals, names, calls and what stands in parentheses are well formed. -/
theorem keeps_primary (hg : g.Sound) (hv : v.Valid) :
    Keeps Leads (primary g) v (Reads .expression) := by
  refine .calm_bind calm_next fun t _ => ?_
  split
  · refine .calm_bind calm_advance fun _ _ => .calm_bind (calm_accept _) fun b _ => ?_
    split
    · exact keeps_statementExpression hg hv _
    · refine .bind evolution_leads (hg.assignment v hv) fun e w hw he => ?_
      exact .calm_bind (calm_expect _ _) fun _ _ => .pure (.refl hw.valid) he
  · cases t.kind with
    | num n => exact .calm_bind calm_advance fun _ _ => .pure (.refl hv) .num
    | str bytes =>
      refine .calm_bind calm_advance fun _ _ => ?_
      exact .bind evolution_leads (keeps_literal_variable hv _) fun id w hw hid =>
        .pure (.refl hw.valid) (.var hid)
    | ident =>
      refine .calm_bind calm_advance fun _ _ => .calm_bind (calm_accept _) fun b _ => ?_
      split
      · exact keeps_call hg hv _ _
      · exact keeps_namedVariable hv _ _
    | _ => exact keeps_grammarFault _

theorem keeps_operand (hg : g.Sound) (hv : v.Valid) :
    Keeps Leads (operand g) v (Reads .expression) := by
  refine .bind evolution_leads (keeps_primary hg hv) fun e w hw he => ?_
  refine keeps_grow (Q := Reads .expression) evolution_leads reads_mono (.refl hw.valid)
    (fun e u hu he => ?_) e he
  refine .calm_bind (calm_acceptOne _) fun o _ => ?_
  split
  · exact .pure (.refl hu.valid) (by simp)
  · refine .bind evolution_leads (keeps_applyPostfix hg hu.valid _ _ he) fun n x hx hn => ?_
    exact .pure (.refl hx.valid) (by rintro _ ⟨⟩; exact hn)

/-- So are operands with operators before them. -/
theorem keeps_unary (hg : g.Sound) (hv : v.Valid) :
    Keeps Leads (unary g) v (Reads .expression) := by
  refine .calm_bind (calm_acceptOne _) fun o _ => ?_
  split
  · exact keeps_operand hg hv
  · refine .calm_bind (calm_check _) fun a _ => .calm_bind calm_atTypeSecond fun b _ => ?_
    split
    · exact keeps_sizeOfType hg hv _
    · exact .bind evolution_leads (hg.unary v hv) fun e w hw he => keeps_applyPrefix hw.valid _ _ he
  · exact .bind evolution_leads (hg.unary v hv) fun e w hw he => keeps_applyPrefix hw.valid _ _ he

/-- So are operands that are joined by operators. -/
theorem keeps_leftGrouped (table : List (String × BinaryOp)) {operand : Parse Node}
    (ho : ∀ w : View, w.Valid → Keeps Leads operand w (Reads .expression))
    (hv : v.Valid) :
    Keeps Leads (leftGrouped table operand) v (Reads .expression) := by
  refine .bind evolution_leads (ho v hv) fun first w hw hf => ?_
  refine keeps_grow (Q := Reads .expression) evolution_leads reads_mono (.refl hw.valid)
    (fun l u hu hl => ?_) first hf
  refine .calm_bind (calm_acceptOne _) fun o _ => ?_
  split
  · exact .pure (.refl hu.valid) (by simp)
  · refine .bind evolution_leads (ho u hu.valid) fun r x hx hr => .pure (.refl hx.valid) ?_
    rintro _ ⟨⟩
    exact .binary (hx.shapes hl) hr

theorem keeps_disjunction (hg : g.Sound) (hv : v.Valid) :
    Keeps Leads (disjunction g) v (Reads .expression) := by
  refine keeps_leftGrouped _ (fun w hw => ?_) hv
  refine keeps_leftGrouped _ (fun w hw => ?_) hw
  refine keeps_leftGrouped _ (fun w hw => ?_) hw
  refine keeps_leftGrouped _ (fun w hw => ?_) hw
  refine keeps_leftGrouped _ (fun w hw => ?_) hw
  exact keeps_leftGrouped _ (fun w hw => keeps_unary hg hw) hw

theorem keeps_ternary (hg : g.Sound) (hv : v.Valid) :
    Keeps Leads (ternary g) v (Reads .expression) := by
  refine .bind evolution_leads (keeps_disjunction hg hv) fun cond w hw hc => ?_
  refine .calm_bind (calm_acceptOne _) fun o _ => ?_
  split
  · exact .pure (.refl hw.valid) hc
  · refine .bind evolution_leads (hg.assignment w hw.valid) fun x u hu hx => ?_
    refine .calm_bind (calm_expect _ _) fun _ _ => ?_
    refine .bind evolution_leads (hg.ternary u hu.valid) fun y z hz hy => ?_
    exact .pure (.refl hz.valid) (.ternary ((hu.trans hz).shapes hc) (hz.shapes hx) hy)

/-- So are expressions of every level. -/
theorem keeps_assignment (hg : g.Sound) (hv : v.Valid) :
    Keeps Leads (assignment g) v (Reads .expression) := by
  refine .bind evolution_leads (keeps_ternary hg hv) fun target w hw ht => ?_
  refine .calm_bind (calm_acceptOne _) fun o _ => ?_
  split
  · exact .pure (.refl hw.valid) ht
  · exact .bind evolution_leads (hg.assignment w hw.valid) fun value u hu hx =>
      .pure (.refl hu.valid) (.assign (hu.shapes ht) hx)
  · exact .bind evolution_leads (hg.assignment w hw.valid) fun value u hu hx =>
      keeps_update_target hu.valid _ _ (hu.shapes ht) hx

end Parse

end StackC
