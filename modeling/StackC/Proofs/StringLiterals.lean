import StackC.Proofs.Assembly.Output
import StackC.Proofs.Grammar.Reading
import StackC.Proofs.Machine.Bytes
import StackC.Proofs.Respacing

namespace StackC

open Assembly Emission

namespace Lexeme

def spelling : Char → List Char
  | '\n' => ['\\', 'n']
  | '\t' => ['\\', 't']
  | '\r' => ['\\', 'r']
  | '\x00' => ['\\', '0']
  | '\\' => ['\\', '\\']
  | '"' => ['\\', '"']
  | c => [c]

/-- A spelled character stands for its bytes, whatever follows. -/
theorem string_spelling (c : Char) (n : Nat) (bytes : List UInt8) (cs : List Char) :
    string n bytes (spelling c ++ cs) =
      string (n + (spelling c).length) ((String.utf8EncodeChar c).reverse ++ bytes) cs := by
  unfold spelling
  split
  case h_7 =>
    rw [List.singleton_append, string]
    · rfl
    all_goals simp_all
  all_goals rfl

/-- The step by character, carried through a whole text: the bytes are collected latest first. -/
theorem string_spellings (u : List Char) (n : Nat) (bytes : List UInt8) (cs : List Char) :
    string n bytes (u.flatMap spelling ++ cs) =
      string (n + (u.flatMap spelling).length)
        ((u.flatMap String.utf8EncodeChar).reverse ++ bytes) cs := by
  induction u generalizing n bytes with
  | nil => rfl
  | cons c u ih =>
    rw [List.flatMap_cons, List.append_assoc, string_spelling, ih, List.flatMap_cons,
      List.length_append, List.reverse_append, List.append_assoc, Nat.add_assoc]

/-- The spelling of a text is read as the bytes of the text. -/
theorem read_spellings (u cs : List Char) :
    read '"' (u.flatMap spelling ++ '"' :: cs) =
      .token (.str (u.flatMap String.utf8EncodeChar)) ((u.flatMap spelling).length + 2) := by
  rw [read, if_pos rfl, string_spellings, string, List.append_nil, List.reverse_reverse]
  congr 1
  omega

end Lexeme

open Lexeme (spelling)

/-- The declaration of an array that takes its length and its bytes from the spelling of a text. -/
def stringDeclaration (u : List Char) : String :=
  "char s[] = \"" ++ String.ofList (u.flatMap spelling) ++ "\";"

theorem toList_stringDeclaration (u : List Char) :
    (stringDeclaration u).toList =
      "char s[] = \"".toList ++ (u.flatMap spelling ++ ['"', ';']) := by
  simp [stringDeclaration]

namespace Scanner

/-- A known token is read behind a gap, and then tokens that are known. -/
theorem tokensWithin_cons {budget n : Nat} {p place : Location} {lineStart fresh : Bool}
    {cs ds rest : List Char} {c : Char} {kind : TokenKind} {ts : List Token}
    (hgap : passGap .blank p lineStart cs = (none, ⟨c :: ds, place, fresh⟩))
    (hmark : (fresh && c == '#') = false) (hread : Lexeme.read c ds = .token kind n)
    (hdrop : (c :: ds).drop n = rest)
    (hrest : (tokensWithin budget ⟨rest, place.afterAll ((c :: ds).take n), false⟩).1 = .ok ts) :
    (tokensWithin (budget + 1) ⟨cs, p, lineStart⟩).1 =
      .ok (⟨kind, String.ofList ((c :: ds).take n), place⟩ :: ts) := by
  rw [tokensWithin_read hgap hmark hread, hdrop, hrest]
  rfl

/-- Behind the mark of an initializer stand the literal and the end of the declaration. -/
theorem tokensWithin_literal (u : List Char) (budget : Nat) (p : Location) :
    ∃ text q₁ q₂ q₃,
      (tokensWithin (budget + 3) ⟨' ' :: '"' :: (u.flatMap spelling ++ ['"', ';']), p, false⟩).1 =
        .ok [⟨.str (u.flatMap String.utf8EncodeChar), text, q₁⟩, ⟨.reserved, ";", q₂⟩,
          .atEnd q₃] := by
  have hdrop : ('"' :: (u.flatMap spelling ++ ['"', ';'])).drop ((u.flatMap spelling).length + 2) =
      [';'] := by
    rw [List.drop_succ_cons, List.drop_length_add_append]
    rfl
  exact ⟨_, _, _, _, tokensWithin_cons rfl rfl (Lexeme.read_spellings u [';']) hdrop rfl⟩

end Scanner

def stringTokens (bytes : List UInt8) (text : String) (p₁ p₂ p₃ p₄ p₅ p₆ p₇ : Location) :
    List Token :=
  [⟨.reserved, "char", p₁⟩, ⟨.ident, "s", p₂⟩, ⟨.reserved, "[", p₃⟩, ⟨.reserved, "]", p₄⟩,
    ⟨.reserved, "=", p₅⟩, ⟨.str bytes, text, p₆⟩, ⟨.reserved, ";", p₇⟩]

/-- The declaration has seven tokens, of which the sixth holds the bytes of the text. -/
theorem tokenize_stringDeclaration (u : List Char) : ∃ text p₁ p₂ p₃ p₄ p₅ p₆ p₇ finish,
    tokenize (stringDeclaration u) = .ok
      (stringTokens (u.flatMap String.utf8EncodeChar) text p₁ p₂ p₃ p₄ p₅ p₆ p₇ ++
        [.atEnd finish]) := by
  have hbudget : (stringDeclaration u).toList.length + 1 = (u.flatMap spelling).length + 7 + 8 := by
    rw [toList_stringDeclaration]
    simp
  rw [tokenize, Scanner.tokens, Scanner.ofSource, hbudget, toList_stringDeclaration]
  -- The rest is read behind the ten characters up to the mark of the initializer.
  obtain ⟨text, p₆, p₇, finish, hliteral⟩ :=
    Scanner.tokensWithin_literal u ((u.flatMap spelling).length + 7) ⟨1, 11, 10⟩
  open Scanner in
  exact ⟨text, _, _, _, _, _, p₆, p₇, finish, (tokensWithin_cons rfl rfl rfl rfl <|
    tokensWithin_cons rfl rfl rfl rfl <| tokensWithin_cons rfl rfl rfl rfl <|
    tokensWithin_cons rfl rfl rfl rfl <| tokensWithin_cons rfl rfl rfl rfl hliteral).trans rfl⟩

/-- A byte that is read as a signed character and widened is the lowest byte of the word. -/
theorem littleEndian_signedByte (b : UInt8) : littleEndian 1 (signedByte b) = [b] := by
  have hbyte := toBitVec_byte (signedByte b) (k := 0) (by decide)
  have hlow : ((signedByte b).toBitVec >>> 0).setWidth 8 = b.toBitVec := by
    have hwide : (signedByte b).toBitVec = b.toBitVec.signExtend 64 := rfl
    rw [hwide, BitVec.ushiftRight_zero]
    apply BitVec.eq_of_getLsbD_eq
    intro i hi
    rw [BitVec.getLsbD_setWidth, BitVec.getLsbD_signExtend]
    simp [hi, Nat.lt_trans hi (by decide : 8 < 64)]
  exact congrArg ([·]) (UInt8.toBitVec_inj.mp (hbyte.trans hlow))

/-- An array that takes its length from a string holds its bytes and a terminator. -/
theorem data_string (bytes : List UInt8) (p : Location) :
    Initializer.data (.arrayOf .char (some (bytes.length + 1)))
      (.str bytes p) = .ok (bytes ++ [0]) := by
  have hchars : (bytes.map signedByte).flatMap (littleEndian 1) = bytes := by
    rw [List.flatMap_map]
    simp only [littleEndian_signedByte]
    exact List.flatMap_singleton' bytes
  have hpadded : Initializer.padded (bytes.length + 1) bytes = bytes.map signedByte ++ [0] := by
    simp [Initializer.padded]
  have hfits : ¬bytes.length > (some (bytes.length + 1)).getD 0 := by simp
  rw [CType.arrayOf, Initializer.data, if_pos (by rfl), if_neg hfits, Option.getD_some, hpadded,
    List.flatMap_append]
  exact congrArg (fun front => Except.ok (front ++ [0])) hchars

def stringProgram (bytes : List UInt8) : Program where
  vars := #[⟨"s", .arrayOf .char (some (bytes.length + 1)), .global (some (bytes ++ [0]))⟩]
  globals := [0]

namespace Parse

variable (bytes : List UInt8) (text : String) (p₁ p₂ p₃ p₄ p₅ p₆ p₇ finish : Location)

/-- The variable takes its length and its bytes from the literal. -/
theorem globalVariable_string (g : Grammar) : ∃ scopes,
    globalVariable g ⟨"s", .arrayOf .char none, p₂⟩
      { ahead := (stringTokens bytes text p₁ p₂ p₃ p₄ p₅ p₆ p₇).drop 4, finish := finish,
        last := p₄ } =
    .ok () { ahead := [⟨.reserved, ";", p₇⟩], finish := finish, last := p₆, scopes := scopes,
             program := stringProgram bytes } := by
  let s : ParseState := { ahead := [⟨.reserved, ";", p₇⟩], finish := finish, last := p₆ }
  have hbytes : initialBytes (.arrayOf .char (some (bytes.length + 1))) (some (.str bytes p₆)) s =
      .ok (some (bytes ++ [0])) s := by
    rw [initialBytes, data_string]
    rfl
  exact ⟨_, (bind_of_ok hbytes).trans rfl⟩

/-- One round of declarations takes all the tokens. -/
theorem readProgram_string :
    (ParseState.readProgram
      { ahead := stringTokens bytes text p₁ p₂ p₃ p₄ p₅ p₆ p₇, finish := finish }).1 =
      .ok (stringProgram bytes) := by
  obtain ⟨scopes, hvar⟩ := globalVariable_string bytes text p₁ p₂ p₃ p₄ p₅ p₆ p₇ finish (.ofDepth 7)
  let first : ParseState :=
    { ahead := stringTokens bytes text p₁ p₂ p₃ p₄ p₅ p₆ p₇, finish := finish }
  let last : ParseState :=
    { ahead := [], finish := finish, last := p₇, scopes := scopes, program := stringProgram bytes }
  have htop : topLevel (.ofDepth 7) first = .ok () last := (bind_of_ok hvar).trans rfl
  have hlevels : topLevelsWithin (.ofDepth 7) 7 first = .ok () last := (bind_of_ok htop).trans rfl
  have hprogram : program first = .ok (stringProgram bytes) { last with program := {} } :=
    (bind_of_ok hlevels).trans rfl
  rw [ParseState.readProgram, hprogram]

end Parse

/-- The declaration is read as a program with one array. -/
theorem parse_stringDeclaration (u : List Char) :
    parse (stringDeclaration u) = .ok (stringProgram (u.flatMap String.utf8EncodeChar)) := by
  obtain ⟨text, p₁, p₂, p₃, p₄, p₅, p₆, p₇, finish, htokens⟩ := tokenize_stringDeclaration u
  have hstate : ParseState.ofSource (stringDeclaration u) = .ok
      { ahead := stringTokens (u.flatMap String.utf8EncodeChar) text p₁ p₂ p₃ p₄ p₅ p₆ p₇,
        finish := finish } := by
    rw [ParseState.ofSource, htokens]
    rfl
  rw [parse, hstate]
  exact Parse.readProgram_string ..

theorem analyze_stringDeclaration (u : List Char) :
    analyze (stringDeclaration u) = .ok (stringProgram (u.flatMap String.utf8EncodeChar)) := by
  rw [analyze, parse_stringDeclaration]
  rfl

/-- The bytes are printed one by one, and then the terminator. -/
theorem map_text_stringProgram (bytes : List UInt8) :
    (dataSection (stringProgram bytes)).map Line.text =
      ["  .data", "  .globl s", "s:"] ++ bytes.map (fun b => "  .byte " ++ toString b.toNat) ++
        ["  .byte 0"] := by
  have hdata : dataSection (stringProgram bytes) =
      [.directive .dataSection, .directive (.globl "s"), .label (.symbol "s")] ++
        (bytes.map (fun b => .directive (.byte b)) ++ [.directive (.byte 0)]) := by
    simp [dataSection, stringProgram, globalData, Program.var?]
  rw [hdata, List.map_append, List.map_append, List.map_map, List.append_assoc]
  rfl

/-- Every text can be written as a string literal. An array that is declared with the literal is
printed byte by byte: first the bytes of the text, as they are encoded in UTF-8, and then a zero. -/
theorem compile_stringDeclaration (u : List Char) : ∃ text,
    compile (stringDeclaration u) = .ok text ∧
    sections (linesOf text) =
      [["  .data", "  .globl s", "s:"] ++
        (String.ofList u).toUTF8.data.toList.map (fun b => "  .byte " ++ toString b.toNat) ++
          ["  .byte 0"],
        ["  .section .note.GNU-stack,\"\",@progbits"]] := by
  have hutf8 : (String.ofList u).toUTF8.data.toList = u.flatMap String.utf8EncodeChar := by
    rw [String.toUTF8_eq_toByteArray, String.toByteArray_ofList, List.utf8Encode]
    simp
  have hanalyze := analyze_stringDeclaration u
  obtain ⟨text, htext⟩ := exists_text_of_analyze hanalyze
  obtain ⟨p, blocks, hp, hout⟩ := compile_output htext
  cases hp.symm.trans hanalyze
  cases List.forall₂_nil_left_iff.mp hout.functions
  refine ⟨text, htext, ?_⟩
  rw [hout.sections_eq, hutf8, ← map_text_stringProgram]
  rfl

end StackC
