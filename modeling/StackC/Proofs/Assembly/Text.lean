import Mathlib.Data.List.SplitBy
import StackC.Assembly.Printer
import StackC.Proofs.Grammar.Symbols

/-!
Reading the text of the output. The lines of the output can be told from its text, and so can the
sections that they stand in, the labels that they define, the targets of jumps and the symbols whose
addresses are taken.
-/

namespace StackC

namespace Assembly

def linesOf (text : String) : List String :=
  (text.toList.splitOn '\n').dropLast.map String.ofList

def sectionLines : List String :=
  ["  .data", "  .text", "  .section .note.GNU-stack,\"\",@progbits"]

def sections (lines : List String) : List (List String) :=
  lines.splitBy fun _ next => !sectionLines.contains next

def jumpWords : List String := ["jmp", "je", "jne"]

def Jumps (line label : String) : Prop := ∃ op ∈ jumpWords, line = "  " ++ op ++ " " ++ label

def Addresses (line symbol : String) : Prop := ∃ rest, line = "  lea " ++ symbol ++ "(%rip)" ++ rest

def Adds (line : String) (n : Nat) : Prop := line = "  add $" ++ toString n ++ ", %rax"

/-- A name as it stands in the output: a word, or the name of a string literal. -/
def IsName (s : String) : Prop := IsWord s ∨ ∃ k, s = View.literalName k

def Label.names : Label → List String
  | numbered _ _ => []
  | functionEnd name | symbol name => [name]

def Line.names : Line → List String
  | label l | instr (.jump l) | instr (.jumpIf _ l) => l.names
  | instr (.leaSymbol name _) | instr (.call name _) | directive (.globl name) => [name]
  | _ => []

def Line.Spelled (x : Line) : Prop := ∀ name ∈ x.names, IsName name

def isLabelChar (c : Char) : Bool := Lexeme.isNameChar c || c == '.'

theorem isLabelChar_of_isDigit {c : Char} (h : c.isDigit = true) : isLabelChar c = true := by
  simp [isLabelChar, Lexeme.isNameChar, Char.isAlphanum, h]

theorem isDigit_of_mem_toString {n : Nat} {c : Char} (h : c ∈ (toString n).toList) :
    c.isDigit = true := by
  rw [Nat.toString_eq_ofList_toDigits, String.toList_ofList] at h
  exact Nat.isDigit_of_mem_toDigits (by decide) (by decide) h

theorem toList_literalName (k : Nat) :
    (View.literalName k).toList = ".L..str.".toList ++ (toString k).toList :=
  String.toList_append

/-- Names consist of characters that may stand in a label. -/
theorem IsName.chars {s : String} (h : IsName s) : ∀ c ∈ s.toList, isLabelChar c = true := by
  intro c hc
  rcases h with hword | ⟨k, rfl⟩
  · rw [isLabelChar, hword c hc, Bool.true_or]
  · rw [toList_literalName] at hc
    rcases List.mem_append.mp hc with hc | hc
    · have hprefix : ".L..str.".toList.all isLabelChar = true := by decide
      exact List.all_eq_true.mp hprefix c hc
    · exact isLabelChar_of_isDigit (isDigit_of_mem_toString hc)

def Label.Spelled (l : Label) : Prop := ∀ name ∈ l.names, IsName name

theorem toList_numbered (role : LabelRole) (n : Nat) :
    (Label.numbered role n).text.toList =
      ".L.".toList ++ (role.text.toList ++ ('.' :: (toString n).toList)) := by
  simp [Label.text, toString]

theorem toList_functionEnd (name : String) :
    (Label.functionEnd name).text.toList = ".L.return.".toList ++ name.toList :=
  String.toList_append

/-- So do labels that are made of such names. -/
theorem Label.Spelled.chars {l : Label} (h : l.Spelled) :
    ∀ c ∈ l.text.toList, isLabelChar c = true := by
  intro c hc
  cases l with
  | numbered role n =>
    have hprefix : ".L.".toList.all isLabelChar = true := by decide
    have hrole : role.text.toList.all isLabelChar = true := by cases role <;> decide
    simp only [toList_numbered, List.mem_append, List.mem_cons] at hc
    rcases hc with hc | hc | rfl | hc
    · exact List.all_eq_true.mp hprefix c hc
    · exact List.all_eq_true.mp hrole c hc
    · rfl
    · exact isLabelChar_of_isDigit (isDigit_of_mem_toString hc)
  | functionEnd name =>
    rw [toList_functionEnd] at hc
    rcases List.mem_append.mp hc with hc | hc
    · have hprefix : ".L.return.".toList.all isLabelChar = true := by decide
      exact List.all_eq_true.mp hprefix c hc
    · exact (h name List.mem_cons_self).chars c hc
  | symbol name => exact (h name List.mem_cons_self).chars c hc

theorem LabelRole.text_inj {r r' : LabelRole} (h : r.text.toList = r'.text.toList) : r = r' := by
  cases r <;> cases r' <;> first | rfl | exact absurd h (by decide)

theorem dot_not_mem_role (r : LabelRole) : '.' ∉ r.text.toList := by
  cases r <;> decide

theorem dot_not_mem_toString (n : Nat) : '.' ∉ (toString n).toList :=
  fun h => absurd (isDigit_of_mem_toString h) (by decide)

/-- A label that is made up is no name of the program. -/
theorem ne_symbol {l : Label} {name : String} (hname : IsName name) (hdot : '.' ∈ l.text.toList)
    (hl : ∀ k, l.text ≠ View.literalName k) : l.text ≠ name := by
  intro h
  rcases hname with hword | ⟨k, rfl⟩
  · exact absurd (hword '.' (h ▸ hdot)) (by decide)
  · exact hl k h

/-- A numbered label is the name of nothing in the program. -/
theorem numbered_ne_symbol {role : LabelRole} {n : Nat} {name : String} (hname : IsName name) :
    (Label.numbered role n).text ≠ name := by
  refine ne_symbol hname ?_ fun k h => ?_
  · rw [toList_numbered]
    exact List.mem_append_left _ List.mem_cons_self
  · have hlist := congrArg String.toList h
    rw [toList_numbered, toList_literalName] at hlist
    cases role <;> simp [LabelRole.text] at hlist

/-- Nor is the label at the end of a function. -/
theorem functionEnd_ne_symbol {f name : String} (hname : IsName name) :
    (Label.functionEnd f).text ≠ name := by
  refine ne_symbol hname ?_ fun k h => ?_
  · rw [toList_functionEnd]
    exact List.mem_append_left _ List.mem_cons_self
  · have hlist := congrArg String.toList h
    rw [toList_functionEnd, toList_literalName] at hlist
    simp at hlist

/-- A numbered label is not the end of a function, since no role is called `return`. -/
theorem numbered_ne_functionEnd {role : LabelRole} {n : Nat} {f : String} :
    (Label.numbered role n).text ≠ (Label.functionEnd f).text := by
  intro h
  have hlist := congrArg String.toList h
  rw [toList_numbered, toList_functionEnd] at hlist
  cases role <;> simp [LabelRole.text] at hlist

/-- A numbered label tells its role and its number. -/
theorem numbered_inj {r r' : LabelRole} {n n' : Nat}
    (h : (Label.numbered r n).text = (Label.numbered r' n').text) : r = r' ∧ n = n' := by
  have hlist := congrArg String.toList h
  rw [toList_numbered, toList_numbered, List.append_cancel_left_eq] at hlist
  -- The role ends at the last dot of the label.
  obtain ⟨hrole, -, hdigits⟩ :=
    (List.append_cons_inj_of_notMem (dot_not_mem_role r) (dot_not_mem_toString n)).mp hlist
  exact ⟨LabelRole.text_inj hrole, toString_inj (String.toList_inj.mp hdigits)⟩

/-- Labels are told apart by their texts. -/
theorem Label.text_inj {l l' : Label} (hl : l.Spelled) (hl' : l'.Spelled) (h : l.text = l'.text) :
    l = l' := by
  cases l with
  | numbered r n =>
    cases l' with
    | numbered r' n' =>
      obtain ⟨rfl, rfl⟩ := numbered_inj h
      rfl
    | functionEnd f => exact absurd h numbered_ne_functionEnd
    | symbol name => exact absurd h (numbered_ne_symbol (hl' name List.mem_cons_self))
  | functionEnd f =>
    cases l' with
    | numbered r' n' => exact absurd h.symm numbered_ne_functionEnd
    | functionEnd f' => exact congrArg Label.functionEnd ((String.append_right_inj _).mp h)
    | symbol name => exact absurd h (functionEnd_ne_symbol (hl' name List.mem_cons_self))
  | symbol name =>
    have hname := hl name List.mem_cons_self
    cases l' with
    | numbered r' n' => exact absurd h.symm (numbered_ne_symbol hname)
    | functionEnd f => exact absurd h.symm (functionEnd_ne_symbol hname)
    | symbol name' => exact congrArg Label.symbol h

/-- Whether the character can stand in a line that defines no label. -/
def isPlain (c : Char) : Bool := c != '\n' && c != ':'

def Plain (s : String) : Prop := s.toList.all isPlain = true

instance (s : String) : Decidable (Plain s) :=
  inferInstanceAs (Decidable (s.toList.all isPlain = true))

theorem Plain.char {s : String} (h : Plain s) {c : Char} (hc : c ∈ s.toList) : isPlain c = true :=
  List.all_eq_true.mp h c hc

theorem Plain.append {s t : String} (hs : Plain s) (ht : Plain t) : Plain (s ++ t) := by
  unfold Plain
  rw [String.toList_append, List.all_append, Bool.and_eq_true]
  exact ⟨hs, ht⟩

theorem isPlain_of_isLabelChar {c : Char} (h : isLabelChar c = true) : isPlain c = true := by
  unfold isPlain
  rw [Bool.and_eq_true, bne_iff_ne, bne_iff_ne]
  constructor
  · rintro rfl
    exact absurd h (by decide)
  · rintro rfl
    exact absurd h (by decide)

theorem plain_of_chars {s : String} (h : ∀ c ∈ s.toList, isLabelChar c = true) : Plain s :=
  List.all_eq_true.mpr fun c hc => isPlain_of_isLabelChar (h c hc)

theorem IsName.plain {s : String} (h : IsName s) : Plain s := plain_of_chars h.chars

theorem Label.Spelled.plain {l : Label} (h : l.Spelled) : Plain l.text := plain_of_chars h.chars

theorem plain_nat (n : Nat) : Plain (toString n) :=
  plain_of_chars fun _ hc => isLabelChar_of_isDigit (isDigit_of_mem_toString hc)

theorem plain_int (n : Int) : Plain (toString n) := by
  cases n with
  | ofNat m => exact plain_nat m
  | negSucc m => exact Plain.append (s := "-") (by decide) (plain_nat (m + 1))

theorem plain_reg (r : Reg) (w : Width) : Plain (r.text w) := by
  cases r <;> cases w <;> decide

theorem plain_mnemonic (w : Width) : Plain w.mnemonic := by
  cases w <;> decide

theorem plain_suffix (c : Cond) : Plain c.suffix := by
  cases c <;> decide

/-- The texts of instructions are put together from plain parts. -/
theorem plain_instr {i : Instr} (h : (Line.instr i).Spelled) : Plain i.text := by
  cases i with
  | movImm n w r =>
    exact .append (.append (.append (by decide) (plain_int _)) (by decide)) (plain_reg r w)
  | movAbs n r =>
    exact .append (.append (.append (by decide) (plain_int _)) (by decide)) (plain_reg r .quad)
  | mov src dst | cmp src dst =>
    exact .append (.append (.append (by decide) (plain_reg src .quad)) (by decide))
      (plain_reg dst .quad)
  | load w base dst =>
    exact .append (.append (.append (.append (plain_mnemonic w) (by decide)) (plain_reg base .quad))
      (by decide)) (plain_reg dst .quad)
  | store w src base =>
    exact .append (.append (.append (.append (by decide) (plain_reg src w)) (by decide))
      (plain_reg base .quad)) (by decide)
  | storeFrame w src k =>
    exact .append (.append (.append (.append (by decide) (plain_reg src w)) (by decide))
      (plain_nat k)) (by decide)
  | leaFrame k dst =>
    exact .append (.append (.append (by decide) (plain_nat k)) (by decide)) (plain_reg dst .quad)
  | leaSymbol name dst =>
    exact .append (.append (.append (by decide) (h name List.mem_cons_self).plain) (by decide))
      (plain_reg dst .quad)
  | push r | pop r | divide r | cmpZero r => exact .append (by decide) (plain_reg r .quad)
  | arith op src dst =>
    have hop : Plain op.mnemonic := by cases op <;> decide
    exact .append (.append (.append (.append hop (by decide)) (plain_reg src .quad)) (by decide))
      (plain_reg dst .quad)
  | addImm n r | subImm n r =>
    exact .append (.append (.append (by decide) (plain_nat n)) (by decide)) (plain_reg r .quad)
  | extend w r =>
    exact .append (.append (.append (.append (plain_mnemonic w) (by decide)) (plain_reg r w))
      (by decide)) (plain_reg r .quad)
  | extendFlag r =>
    exact .append (.append (.append (by decide) (plain_reg r .byte)) (by decide))
      (plain_reg r .quad)
  | signIntoRdx | ret => decide
  | setFlag c r =>
    exact .append (.append (.append (by decide) (plain_suffix c)) (by decide)) (plain_reg r .byte)
  | jump l => exact .append (by decide) (Label.Spelled.plain h)
  | jumpIf c l =>
    exact .append (.append (.append (by decide) (plain_suffix c)) (by decide))
      (Label.Spelled.plain h)
  | call name _ => exact .append (by decide) (h name List.mem_cons_self).plain

/-- A directive has neither a line feed nor a colon in it. -/
theorem plain_directive {d : Directive} (h : (Line.directive d).Spelled) : Plain d.text := by
  cases d with
  | dataSection | textSection | plainStack => decide
  | globl name => exact Plain.append (s := ".globl ") (by decide) (h name List.mem_cons_self).plain
  | byte b => exact Plain.append (s := ".byte ") (by decide) (plain_nat b.toNat)
  | zero n => exact Plain.append (s := ".zero ") (by decide) (plain_nat n)

/-- Only a line that defines a label has a colon in it. -/
theorem Line.eq_label {x : Line} (hx : x.Spelled) {label : String} (h : x.text = label ++ ":") :
    ∃ l, x = .label l ∧ l.text = label := by
  have hcolon : ':' ∈ x.text.toList := by
    rw [h, String.toList_append]
    exact List.mem_append_right _ List.mem_cons_self
  cases x with
  | label l => exact ⟨l, rfl, (String.append_left_inj _).mp h⟩
  | instr i =>
    have hplain : Plain (Line.instr i).text := .append (s := "  ") (by decide) (plain_instr hx)
    exact absurd (hplain.char hcolon) (by decide)
  | directive d =>
    have hplain : Plain (Line.directive d).text :=
      .append (s := "  ") (by decide) (plain_directive hx)
    exact absurd (hplain.char hcolon) (by decide)

/-- A line of the output is one line of its text. -/
theorem Line.newline_not_mem {x : Line} (hx : x.Spelled) : '\n' ∉ x.text.toList := by
  intro h
  cases x with
  | label l =>
    have htext : (Line.label l).text.toList = l.text.toList ++ [':'] := String.toList_append
    rw [htext] at h
    rcases List.mem_append.mp h with h | h
    · exact absurd (Label.Spelled.chars hx '\n' h) (by decide)
    · exact absurd h (by decide)
  | instr i =>
    have hplain : Plain (Line.instr i).text := .append (s := "  ") (by decide) (plain_instr hx)
    exact absurd (hplain.char h) (by decide)
  | directive d =>
    have hplain : Plain (Line.directive d).text :=
      .append (s := "  ") (by decide) (plain_directive hx)
    exact absurd (hplain.char h) (by decide)

/-- The text of the output is split at its line feeds into the texts of its lines. -/
theorem splitOn_render {lines : List Line} (h : ∀ x ∈ lines, x.Spelled) :
    (render lines).toList.splitOn '\n' = lines.map (·.text.toList) ++ [[]] := by
  induction lines with
  | nil => rfl
  | cons x lines ih =>
    obtain ⟨hx, hlines⟩ := List.forall_mem_cons.mp h
    have hcons : (render (x :: lines)).toList = x.text.toList ++ '\n' :: (render lines).toList := by
      rw [render, List.map_cons, String.join_cons, String.toList_append, String.toList_append,
        List.append_assoc]
      rfl
    rw [hcons, List.splitOn_append_cons_self_of_not_mem (Line.newline_not_mem hx), ih hlines]
    rfl

/-- The lines of the text are those that were printed. -/
theorem linesOf_render {lines : List Line} (h : ∀ x ∈ lines, x.Spelled) :
    linesOf (render lines) = lines.map Line.text := by
  rw [linesOf, splitOn_render h, List.dropLast_concat, List.map_map]
  exact List.map_congr_left fun x _ => String.ofList_toList

def Instr.mnemonic : Instr → String
  | movImm _ _ _ | mov _ _ | store _ _ _ | storeFrame _ _ _ => "mov"
  | movAbs _ _ => "movabs"
  | load w _ _ | extend w _ => w.mnemonic
  | leaFrame _ _ | leaSymbol _ _ => "lea"
  | push _ => "push"
  | pop _ => "pop"
  | arith op _ _ => op.mnemonic
  | addImm _ _ => "add"
  | subImm _ _ => "sub"
  | extendFlag _ => "movzb"
  | signIntoRdx => "cqo"
  | divide _ => "idiv"
  | cmp _ _ | cmpZero _ => "cmp"
  | setFlag c _ => "set" ++ c.suffix
  | jump _ => "jmp"
  | jumpIf c _ => "j" ++ c.suffix
  | call _ _ => "call"
  | ret => "ret"

theorem toString_string (s : String) : toString s = s := rfl

/-- The first word of an instruction is its mnemonic. -/
theorem takeWhile_text (i : Instr) :
    i.text.toList.takeWhile (· != ' ') = i.mnemonic.toList := by
  cases i with
  | load w | extend w =>
    cases w <;> simp [Instr.text, Instr.mnemonic, Width.mnemonic, toString_string]
  | arith op => cases op <;> simp [Instr.text, Instr.mnemonic, Arith.mnemonic, toString_string]
  | setFlag c | jumpIf c =>
    cases c <;> simp [Instr.text, Instr.mnemonic, Cond.suffix, toString_string]
  | _ => simp [Instr.text, Instr.mnemonic, toString_string]

/-- The mnemonic can be told from the text. -/
theorem mnemonic_of_text {i : Instr} {op rest : String} (hop : op.toList.all (· != ' ') = true)
    (h : i.text = op ++ (" " ++ rest)) : i.mnemonic = op := by
  have hword : i.text.toList.takeWhile (· != ' ') = op.toList := by
    rw [h, String.toList_append, List.takeWhile_append_of_pos (List.all_eq_true.mp hop),
      String.toList_append]
    exact List.append_nil _
  exact String.toList_inj.mp ((takeWhile_text i).symm.trans hword)

/-- A line that defines a label is not indented. -/
theorem Label.text_ne_indented {l : Label} (hl : l.Spelled) {rest : String} :
    (Line.label l).text ≠ "  " ++ rest := by
  intro h
  have hblank : ' ' ∈ (Line.label l).text.toList := by
    rw [h, String.toList_append]
    exact List.mem_append_left _ List.mem_cons_self
  have htext : (Line.label l).text.toList = l.text.toList ++ [':'] := String.toList_append
  rw [htext] at hblank
  rcases List.mem_append.mp hblank with hblank | hblank
  · exact absurd (hl.chars ' ' hblank) (by decide)
  · exact absurd hblank (by decide)

/-- An indented line that does not go on with a dot is an instruction. -/
theorem Line.eq_instr {x : Line} (hx : x.Spelled) {op rest : String} {c : Char}
    (hop : op.toList.head? = some c) (hc : c ≠ '.') (h : x.text = "  " ++ op ++ " " ++ rest) :
    ∃ i, x = .instr i ∧ i.text = op ++ (" " ++ rest) := by
  rw [String.append_assoc, String.append_assoc] at h
  cases x with
  | label l => exact absurd h (Label.text_ne_indented hx)
  | instr i => exact ⟨i, rfl, (String.append_right_inj _).mp h⟩
  | directive d =>
    have htext : d.text = op ++ (" " ++ rest) := (String.append_right_inj _).mp h
    have hdot : d.text.toList.head? = some '.' := by
      cases d <;> simp [Directive.text, toString_string]
    obtain ⟨cs, hcs⟩ := List.head?_eq_some_iff.mp hop
    rw [htext, String.toList_append, hcs] at hdot
    exact absurd (Option.some.inj hdot) hc

/-- Only jumps begin with the words for jumps. -/
theorem eq_jump_of_mnemonic {i : Instr} (h : i.mnemonic ∈ jumpWords) :
    ∃ l, i = .jump l ∨ ∃ c, i = .jumpIf c l := by
  cases i with
  | jump l => exact ⟨l, Or.inl rfl⟩
  | jumpIf c l => exact ⟨l, Or.inr ⟨c, rfl⟩⟩
  | load w | extend w => cases w <;> simp [Instr.mnemonic, Width.mnemonic, jumpWords] at h
  | arith op => cases op <;> simp [Instr.mnemonic, Arith.mnemonic, jumpWords] at h
  | setFlag c => cases c <;> simp [Instr.mnemonic, Cond.suffix, jumpWords] at h
  | _ => simp [Instr.mnemonic, jumpWords] at h

/-- Only the instructions that take an address begin with `lea`. -/
theorem eq_lea_of_mnemonic {i : Instr} (h : i.mnemonic = "lea") :
    (∃ k dst, i = .leaFrame k dst) ∨ ∃ name dst, i = .leaSymbol name dst := by
  cases i with
  | leaFrame k dst => exact Or.inl ⟨k, dst, rfl⟩
  | leaSymbol name dst => exact Or.inr ⟨name, dst, rfl⟩
  | load w | extend w => cases w <;> simp [Instr.mnemonic, Width.mnemonic] at h
  | arith op => cases op <;> simp [Instr.mnemonic, Arith.mnemonic] at h
  | setFlag c | jumpIf c => cases c <;> simp [Instr.mnemonic, Cond.suffix] at h
  | _ => simp [Instr.mnemonic] at h

/-- A line that jumps to a label is the instruction to do so. -/
theorem Jumps.eq_instr {x : Line} (hx : x.Spelled) {label : String} (h : Jumps x.text label) :
    ∃ l, l.text = label ∧ (x = .instr (.jump l) ∨ ∃ c, x = .instr (.jumpIf c l)) := by
  obtain ⟨op, hop, h⟩ := h
  have hj : ∀ op ∈ jumpWords, op.toList.head? = some 'j' := by decide
  have hword : ∀ op ∈ jumpWords, op.toList.all (· != ' ') = true := by decide
  obtain ⟨i, rfl, htext⟩ := Line.eq_instr hx (hj op hop) (by decide) h
  have hm := mnemonic_of_text (hword op hop) htext
  subst hm
  obtain ⟨l, rfl | ⟨c, rfl⟩⟩ := eq_jump_of_mnemonic hop
  · have hl : "jmp" ++ (" " ++ l.text) = "jmp" ++ (" " ++ label) := htext
    refine ⟨l, ?_, Or.inl rfl⟩
    exact (String.append_right_inj _).mp ((String.append_right_inj _).mp hl)
  · have hl : "j" ++ c.suffix ++ " " ++ l.text = "j" ++ c.suffix ++ (" " ++ label) := htext
    rw [String.append_assoc, String.append_right_inj, String.append_right_inj] at hl
    exact ⟨l, hl, Or.inr ⟨c, rfl⟩⟩

/-- The parenthesis around the base of an address is the only one in the line. -/
theorem split_address {s symbol base rest : String} {dst : Reg} (hs : '(' ∉ s.toList)
    (hbase : base ∈ ["%rip), ", "%rbp), "])
    (h : s ++ ("(" ++ (base ++ dst.name)) = symbol ++ ("(" ++ ("%rip)" ++ rest))) :
    s = symbol ∧ base = "%rip), " := by
  have hopen : '(' ∉ (base ++ dst.name).toList := by
    have hreg : '(' ∉ dst.name.toList := by cases dst <;> decide
    have hbase : ∀ base ∈ ["%rip), ", "%rbp), "], '(' ∉ base.toList := by decide
    rw [String.toList_append, List.mem_append, not_or]
    exact ⟨hbase base ‹_›, hreg⟩
  have hlist : s.toList ++ '(' :: (base ++ dst.name).toList =
      symbol.toList ++ '(' :: ("%rip)" ++ rest).toList := by
    simpa [← String.toList_inj] using h
  obtain ⟨hname, -, hrest⟩ := (List.append_cons_inj_of_notMem hs hopen).mp hlist
  refine ⟨String.toList_inj.mp hname, ?_⟩
  rcases List.mem_pair.mp hbase with rfl | rfl
  · rfl
  · simp at hrest

/-- A line that takes the address of a symbol is the instruction to do so. -/
theorem Addresses.eq_instr {x : Line} (hx : x.Spelled) {symbol : String}
    (h : Addresses x.text symbol) : ∃ dst, x = .instr (.leaSymbol symbol dst) := by
  obtain ⟨rest, h⟩ := h
  have hsplit : x.text = "  " ++ "lea" ++ " " ++ (symbol ++ ("(" ++ ("%rip)" ++ rest))) := by
    rw [h]
    simp [← String.toList_inj]
  obtain ⟨i, rfl, htext⟩ := Line.eq_instr hx (c := 'l') rfl (by decide) hsplit
  have hm := mnemonic_of_text (by decide) htext
  rw [← String.append_assoc, show "lea" ++ " " = "lea " from rfl] at htext
  rcases eq_lea_of_mnemonic hm with ⟨k, dst, rfl⟩ | ⟨name, dst, rfl⟩
  · have hdigits : '(' ∉ ("-" ++ toString k).toList := by
      rw [String.toList_append, List.mem_append, not_or]
      exact ⟨by decide, fun hc => absurd (isDigit_of_mem_toString hc) (by decide)⟩
    have hplace : "lea " ++ ("-" ++ toString k ++ ("(" ++ ("%rbp), " ++ dst.name))) =
        "lea " ++ (symbol ++ ("(" ++ ("%rip)" ++ rest))) := by
      rw [← htext]
      simp [Instr.text, toString_string, ← String.toList_inj]
    obtain ⟨-, hbase⟩ := split_address hdigits (by decide) ((String.append_right_inj _).mp hplace)
    exact absurd hbase (by decide)
  · have hname : '(' ∉ name.toList := fun hc =>
      absurd ((hx name List.mem_cons_self).chars '(' hc) (by decide)
    have hplace : "lea " ++ (name ++ ("(" ++ ("%rip), " ++ dst.name))) =
        "lea " ++ (symbol ++ ("(" ++ ("%rip)" ++ rest))) := by
      rw [← htext]
      simp [Instr.text, toString_string, ← String.toList_inj]
    obtain ⟨rfl, -⟩ := split_address hname (by decide) ((String.append_right_inj _).mp hplace)
    exact ⟨dst, rfl⟩

/-- Only two instructions begin with `add`. -/
theorem eq_add_of_mnemonic {i : Instr} (h : i.mnemonic = "add") :
    (∃ src dst, i = .arith .add src dst) ∨ ∃ n r, i = .addImm n r := by
  cases i with
  | addImm n r => exact Or.inr ⟨n, r, rfl⟩
  | arith op src dst =>
    cases op with
    | add => exact Or.inl ⟨src, dst, rfl⟩
    | _ => simp [Instr.mnemonic, Arith.mnemonic] at h
  | load w | extend w => cases w <;> simp [Instr.mnemonic, Width.mnemonic] at h
  | setFlag c | jumpIf c => cases c <;> simp [Instr.mnemonic, Cond.suffix] at h
  | _ => simp [Instr.mnemonic] at h

/-- A line that adds a number to `%rax` is the instruction to do so. -/
theorem Adds.eq_instr {x : Line} (hx : x.Spelled) {n : Nat} (h : Adds x.text n) :
    x = .instr (.addImm n .rax) := by
  have hsplit : x.text = "  " ++ "add" ++ " " ++ ("$" ++ (toString n ++ ", %rax")) := by
    rw [h]
    simp [← String.toList_inj]
  obtain ⟨i, rfl, htext⟩ := Line.eq_instr hx (c := 'a') rfl (by decide) hsplit
  have hm := mnemonic_of_text (by decide) htext
  rw [← String.toList_inj] at htext
  rcases eq_add_of_mnemonic hm with ⟨src, dst, rfl⟩ | ⟨k, r, rfl⟩
  · -- A register begins with another character.
    have hfirst : src.name.toList.head? = some '%' := by cases src <;> decide
    obtain ⟨cs, hcs⟩ := List.head?_eq_some_iff.mp hfirst
    simp [Instr.text, Arith.mnemonic, toString_string, hcs] at htext
  · have hdigits : ',' ∉ (toString k).toList := fun hc =>
      absurd (isDigit_of_mem_toString hc) (by decide)
    have hreg : ',' ∉ ' ' :: r.name.toList := by cases r <;> decide
    have hlist : (toString k).toList ++ ',' :: (' ' :: r.name.toList) =
        (toString n).toList ++ ',' :: (' ' :: "%rax".toList) := by
      simpa [Instr.text, toString_string] using htext
    obtain ⟨hnumber, -, hname⟩ := (List.append_cons_inj_of_notMem hdigits hreg).mp hlist
    have hr : r = .rax := by
      cases r <;> first | rfl | exact absurd hname (by decide)
    rw [toString_inj (String.toList_inj.mp hnumber), hr]

/-- A section ends where the next one is opened. -/
theorem sections_cons {first : String} {body rest : List String}
    (hbody : ∀ l ∈ body, l ∉ sectionLines) (hrest : ∀ l ∈ rest.head?, l ∈ sectionLines) :
    sections (first :: body ++ rest) = (first :: body) :: sections rest := by
  have hchain : List.IsChain (fun _ next => (!sectionLines.contains next) = true)
      (first :: body) := by
    have hpair : List.Pairwise (fun _ next => (!sectionLines.contains next) = true)
        (first :: body) := by
      refine List.pairwise_cons.mpr ⟨fun l hl => by simpa using hbody l hl, ?_⟩
      exact List.pairwise_of_forall_mem_list fun _ _ l hl => by simpa using hbody l hl
    exact hpair.isChain
  have hsplit : sections (first :: body ++ rest) = sections (first :: body) ++ sections rest := by
    refine List.splitBy_append fun _ _ l hl => ?_
    simpa using hrest l hl
  rw [hsplit, sections, List.splitBy_of_isChain (List.cons_ne_nil _ _) hchain]
  rfl

/-- No instruction looks like the opening of a section. -/
theorem mnemonic_not_mem (i : Instr) : i.mnemonic ∉ [".data", ".text", ".section"] := by
  cases i with
  | load w | extend w => cases w <;> simp [Instr.mnemonic, Width.mnemonic]
  | arith op => cases op <;> simp [Instr.mnemonic, Arith.mnemonic]
  | setFlag c | jumpIf c => cases c <;> simp [Instr.mnemonic, Cond.suffix]
  | _ => simp [Instr.mnemonic]

def openings : List Line :=
    [.directive .dataSection, .directive .textSection, .directive .plainStack]

theorem text_mem_sectionLines {x : Line} (h : x ∈ openings) : x.text ∈ sectionLines := by
  have hmem : x.text ∈ openings.map Line.text := List.mem_map_of_mem h
  exact hmem

/-- Only the directives for it open a section. -/
theorem Line.mem_openings {x : Line} (hx : x.Spelled) (h : x.text ∈ sectionLines) :
    x ∈ openings := by
  have hindent : ∀ l ∈ sectionLines,
    ∃ d ∈ [".data", ".text", ".section .note.GNU-stack,\"\",@progbits"], l = "  " ++ d := by decide
  obtain ⟨d, hd, htext⟩ := hindent _ h
  cases x with
  | label l => exact absurd htext (Label.text_ne_indented hx)
  | instr i =>
    have hi : i.text = d := (String.append_right_inj _).mp htext
    have hword : ∀ d ∈ [".data", ".text", ".section .note.GNU-stack,\"\",@progbits"],
        String.ofList (d.toList.takeWhile (· != ' ')) ∈ [".data", ".text", ".section"] := by decide
    have hm := hword d hd
    rw [← hi, takeWhile_text, String.ofList_toList] at hm
    exact absurd hm (mnemonic_not_mem i)
  | directive e =>
    have he : e.text = d := (String.append_right_inj _).mp htext
    rw [← he] at hd
    cases e with
    | dataSection | textSection | plainStack => simp [openings]
    | globl name | byte v | zero n =>
      simp [Directive.text, toString_string, ← String.toList_inj] at hd

inductive IsSection : List Line → Prop where
  | intro {first body} (hfirst : first ∈ openings) (hspelled : ∀ x ∈ body, x.Spelled)
      (hbody : ∀ x ∈ body, x ∉ openings) : IsSection (first :: body)

/-- Only the first line of a section looks like the opening of one. -/
theorem IsSection.text_not_mem {first : Line} {body : List Line} (h : IsSection (first :: body)) :
    ∀ l ∈ body.map Line.text, l ∉ sectionLines := by
  cases h with
  | intro _ hspelled hbody =>
    intro l hl hopen
    obtain ⟨x, hx, rfl⟩ := List.mem_map.mp hl
    exact hbody x hx (Line.mem_openings (hspelled x hx) hopen)

/-- The sections of a text are those that it was put together from. -/
theorem sections_flatten {parts : List (List Line)} (h : ∀ part ∈ parts, IsSection part) :
    sections (parts.flatten.map Line.text) = parts.map (·.map Line.text) := by
  induction parts with
  | nil => rfl
  | cons part parts ih =>
    obtain ⟨hpart, hparts⟩ := List.forall_mem_cons.mp h
    have hrest : ∀ l ∈ (parts.flatten.map Line.text).head?, l ∈ sectionLines := by
      intro l hl
      cases parts with
      | nil => cases hl
      | cons next parts =>
        obtain ⟨hopen, -, -⟩ := hparts next List.mem_cons_self
        cases hl
        exact text_mem_sectionLines hopen
    obtain ⟨hopen, hspelled, hbody⟩ := hpart
    have hsection := (IsSection.intro hopen hspelled hbody).text_not_mem
    rw [List.flatten_cons, List.map_append, List.map_cons, sections_cons hsection hrest, ih hparts]
    rfl

end Assembly

end StackC
