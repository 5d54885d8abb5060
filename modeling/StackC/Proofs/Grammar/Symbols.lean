import StackC.Proofs.Grammar.Statements

namespace StackC

theorem toString_inj {m n : Nat} (h : toString m = toString n) : m = n := by
  rw [Nat.toString_eq_ofList_toDigits, Nat.toString_eq_ofList_toDigits, String.ofList_inj] at h
  calc m = Nat.ofDigitChars 10 (Nat.toDigits 10 m) 0 := Nat.ofDigitChars_ten_toDigits.symm
    _ = Nat.ofDigitChars 10 (Nat.toDigits 10 n) 0 := by rw [h]
    _ = n := Nat.ofDigitChars_ten_toDigits

namespace View

theorem literalName_inj {m n : Nat} (h : literalName m = literalName n) : m = n :=
  toString_inj ((String.append_right_inj _).mp h)

/-- The names of string literals begin with a dot, so they are no words. -/
theorem not_isWord_literalName (n : Nat) : ¬IsWord (literalName n) := by
  intro h
  have hdot : '.' ∈ (literalName n).toList := by
    have hname : (literalName n).toList = ".L..str.".toList ++ (toString n).toList :=
      String.toList_append
    rw [hname]
    exact List.mem_append_left _ List.mem_cons_self
  exact absurd (h '.' hdot) (by decide)

def Named (v : View) (a b : VarId) : Prop :=
  ∀ x y, v.vars[a]? = some x → v.vars[b]? = some y → x.name ≠ y.name

/-- What the names of a file stand for. A global variable is bound in the file scope, or it is a
string literal that has been counted. -/
structure Symbols (v : View) : Prop where
  globals : ∀ id ∈ v.program.globals, ∃ x, v.vars[id]? = some x ∧
    ((x.name, id) ∈ v.scopes.vars.file ∨ ∃ k < v.strings, x.name = literalName k)
  apart : v.program.globals.Pairwise v.Named
  words : ∀ b ∈ v.scopes.vars.file, IsWord b.1
  functions : ∀ f ∈ v.program.functions, IsWord f.name ∧ ∀ b ∈ v.scopes.vars.file, b.1 ≠ f.name

/-- Variables that stay as they are keep their names. -/
theorem Symbols.named_of_vars {v w : View} (hs : v.Symbols)
    (h : ∀ (id : VarId) (x : Var), v.vars[id]? = some x → ∃ y, w.vars[id]? = some y ∧
      y.name = x.name) :
    v.program.globals.Pairwise w.Named := by
  refine hs.apart.imp_of_mem fun {a b} ha hb hab x y hx hy => ?_
  obtain ⟨x', hx', -⟩ := hs.globals a ha
  obtain ⟨y', hy', -⟩ := hs.globals b hb
  obtain ⟨x'', hx'', hname⟩ := h a x' hx'
  obtain ⟨y'', hy'', hname'⟩ := h b y' hy'
  cases hx''.symm.trans hx
  cases hy''.symm.trans hy
  rw [hname, hname']
  exact hab x' y' hx' hy'

/-- Readers inside of a declaration add string literals only, which get numbers of their own. -/
theorem Symbols.grows {v w : View} (hs : v.Symbols) (h : v.Grows w) : w.Symbols := by
  obtain ⟨ids, hids, hcount, hnew⟩ := h.literals
  have hliteral (id : VarId) (hid : id ∈ ids) :
      ∃ i < ids.length, ∃ bytes, w.vars[id]? = some (literal (v.strings + i) bytes) := by
    obtain ⟨i, hi, hget⟩ := List.mem_iff_getElem.mp hid
    exact ⟨i, hi, hnew i id (hget ▸ List.getElem?_eq_getElem hi)⟩
  refine ⟨fun id hid => ?_, ?_, h.fileVars ▸ hs.words, ?_⟩
  · rw [hids] at hid
    rcases List.mem_append.mp hid with hid | hid
    · obtain ⟨x, hx, hname⟩ := hs.globals id hid
      refine ⟨x, h.vars id x hx, ?_⟩
      rw [h.fileVars]
      exact hname.imp_right fun ⟨k, hk, he⟩ => ⟨k, by omega, he⟩
    · obtain ⟨i, hi, bytes, hx⟩ := hliteral id hid
      exact ⟨_, hx, Or.inr ⟨v.strings + i, by omega, rfl⟩⟩
  · rw [hids]
    refine List.pairwise_append.mpr ⟨?_, ?_, fun a ha b hb x y hx hy => ?_⟩
    · exact hs.named_of_vars fun id x hx => ⟨x, h.vars id x hx, rfl⟩
    · refine List.pairwise_iff_getElem.mpr fun i j hi hj hij x y hx hy => ?_
      obtain ⟨_, hx'⟩ := hnew i _ (List.getElem?_eq_getElem hi)
      obtain ⟨_, hy'⟩ := hnew j _ (List.getElem?_eq_getElem hj)
      cases hx'.symm.trans hx
      cases hy'.symm.trans hy
      intro hname
      have hnumber := literalName_inj hname
      omega
    · obtain ⟨x', hx', hname⟩ := hs.globals a ha
      cases (h.vars a x' hx').symm.trans hx
      obtain ⟨i, -, bytes, hy'⟩ := hliteral b hb
      cases hy'.symm.trans hy
      rcases hname with hbound | ⟨k, hk, hname⟩
      · intro he
        have hword := hs.words _ hbound
        rw [he] at hword
        exact not_isWord_literalName _ hword
      · -- The literals of `v` have smaller numbers.
        rw [hname]
        intro he
        have hnumber := literalName_inj he
        omega
  · rw [h.functions, h.fileVars]
    exact hs.functions

/-- The scopes inside of the file scope are of no account. -/
theorem Symbols.rescope {v : View} (hs : v.Symbols) {scopes : Scopes}
    (hfile : scopes.vars.file = v.scopes.vars.file) (locals : Option (List VarId)) :
    Symbols { v with scopes := scopes, locals := locals } where
  globals := hfile ▸ hs.globals
  apart := hs.apart
  words := hfile ▸ hs.words
  functions := hfile ▸ hs.functions

/-- A new global variable whose name is bound in the file scope. -/
theorem Symbols.bindNew {v : View} (hs : v.Symbols) {x : Var} (hword : IsWord x.name)
    (hfree : ∀ b ∈ v.scopes.vars.file, b.1 ≠ x.name)
    (hfun : ∀ f ∈ v.program.functions, x.name ≠ f.name) {scopes : Scopes}
    (hfile : scopes.vars.file = (x.name, v.vars.size) :: v.scopes.vars.file) : Symbols { v with
      scopes := scopes, program := (v.program.addVar x).1.addGlobal v.vars.size } := by
  refine ⟨fun id hid => ?_, ?_, ?_, fun f hf => ?_⟩
  · rcases List.mem_append.mp hid with hid | hid
    · obtain ⟨y, hy, hname⟩ := hs.globals id hid
      refine ⟨y, getElem?_addVar hy, hname.imp_left fun hb => ?_⟩
      rw [hfile]
      exact List.mem_cons_of_mem _ hb
    · obtain rfl := List.mem_singleton.mp hid
      refine ⟨x, getElem?_addVar_self _ _, Or.inl ?_⟩
      rw [hfile]
      exact List.mem_cons_self
  · refine List.pairwise_append.mpr ⟨?_, List.pairwise_singleton _ _, fun a ha b hb y z hy hz => ?_⟩
    · exact hs.named_of_vars fun id y hy => ⟨y, getElem?_addVar hy, rfl⟩
    · obtain rfl := List.mem_singleton.mp hb
      obtain ⟨y', hy', hname⟩ := hs.globals a ha
      cases (getElem?_addVar hy').symm.trans hy
      cases (getElem?_addVar_self _ _).symm.trans hz
      rcases hname with hb | ⟨k, -, hname⟩
      · exact hfree _ hb
      · intro he
        rw [← he, hname] at hword
        exact not_isWord_literalName k hword
  · rw [hfile]
    exact List.forall_mem_cons.mpr ⟨hword, hs.words⟩
  · obtain ⟨hfw, hfb⟩ := hs.functions f hf
    rw [hfile]
    exact ⟨hfw, List.forall_mem_cons.mpr ⟨hfun f hf, hfb⟩⟩

/-- A global variable takes its initial bytes. -/
theorem Symbols.setBytes {v : View} (hs : v.Symbols) (id : VarId) (bytes : List UInt8) :
    Symbols { v with
      program := v.program.modifyVar id ({ · with storage := .global (some bytes) }) } := by
  have hget (j : VarId) (y : Var) (hy : v.vars[j]? = some y) :
      ∃ z, (v.program.modifyVar id ({ · with storage := .global (some bytes) })).vars[j]? = some z ∧
        z.name = y.name := by
    have hy : v.program.vars[j]? = some y := hy
    rw [Program.modifyVar, Array.getElem?_modify, hy]
    split
    · exact ⟨_, rfl, rfl⟩
    · exact ⟨y, rfl, rfl⟩
  refine ⟨fun j hj => ?_, hs.named_of_vars hget, hs.words, hs.functions⟩
  obtain ⟨y, hy, hname⟩ := hs.globals j hj
  obtain ⟨z, hz, he⟩ := hget j y hy
  exact ⟨z, hz, he ▸ hname⟩

/-- Functions whose names are words that the file scope does not bind. -/
theorem Symbols.setFunctions {v : View} (hs : v.Symbols) {fs : List Function}
    (hf : ∀ f ∈ fs, (∃ e ∈ v.program.functions, e.name = f.name) ∨
      IsWord f.name ∧ ∀ b ∈ v.scopes.vars.file, b.1 ≠ f.name) :
    Symbols { v with program := { v.program with functions := fs } } := by
  refine ⟨hs.globals, hs.apart, hs.words, fun f hmem => ?_⟩
  rcases hf f hmem with ⟨e, he, hname⟩ | h
  · exact hname ▸ hs.functions e he
  · exact h

end View

end StackC
