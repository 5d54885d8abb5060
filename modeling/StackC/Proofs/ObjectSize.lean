import StackC.Proofs.Assembly.Output
import StackC.Proofs.StructLayout

/-!
The sizes of objects. Arrays are limited to what a signed 32-bit displacement can reach where their
length is written, and frames are limited as a whole; structs and arrays that take their length from
an initializer are not. Where structs happen to keep to the limit, so do the offsets in an output,
and no sum of sizes wraps.
-/

namespace StackC

open Assembly Emission

namespace CType

def StructsFit (t : CType) : Prop := ∀ l n, Part (.struct l n) t → n ≤ maxObjectSize

def MembersFit (t : CType) : Prop :=
  ∀ l n m, Part (.struct l n) t → m ∈ l.members → m.offset + m.type.size ≤ maxObjectSize

/-- A struct ends with its last member. -/
theorem membersFit_iff {t : CType} (ht : t.Sound) : t.MembersFit ↔ t.StructsFit := by
  constructor
  · intro h l n hpart
    cases hpart.sound ht with
    | struct =>
      unfold layoutSize
      cases hlast : l.members.getLast? with
      | none => exact Nat.zero_le _
      | some m => exact h l _ m hpart (List.mem_of_getLast? hlast)
  · intro h l n m hpart hm
    exact ((hpart.sound ht).member_end hm).trans (h l n hpart)

/-- No product and no sum of sizes in the type wraps, so that its structs have the same members in
words as in numbers. -/
structure Unwrapped (t : CType) : Prop where
  arrays : ∀ b len n, Part (.array b len n) t → b.size * len.getD 0 < UInt64.size
  structs : ∀ l n, Part (.struct l n) t → ∃ fields table,
    MemberTable.ofFields l.id l.tag fields = .ok table ∧ table.Packs fields ∧ table.Agrees l

/-- The table of a struct that keeps to the limit. -/
theorem Sound.exists_table {l : Layout CType} {n : Nat} (h : (CType.struct l n).Sound)
    (hn : n ≤ maxObjectSize) : ∃ fields table,
      MemberTable.ofFields l.id l.tag fields = .ok table ∧ table.Packs fields ∧ table.Agrees l := by
  cases h with
  | @struct id tag fields _ hl hf hv =>
    obtain ⟨hnodup, rfl⟩ := Layout.ofFields_eq_ok.mp hl
    rw [layoutSize_eq rfl] at hn
    obtain ⟨b, hb, hholds⟩ := MemberTable.ofFields_of_nodup id tag hnodup
    have hlists : MemberTable.Lists ⟨id, tag, b.slots, b.positions⟩ fields := hholds.lists
    have hpacks := hlists.packs_iff.mpr (Nat.lt_of_le_of_lt hn (by decide))
    exact ⟨fields, _, hb, hpacks, hlists.agrees hpacks hnodup⟩

/-- A type within the limits is the same in words as in numbers. -/
theorem Formed.unwrapped {t : CType} (ht : t.Formed) (hsize : t.size ≤ maxObjectSize)
    (hmembers : t.MembersFit) : t.Unwrapped where
  arrays b len n hpart := by
    -- Arrays were measured where they were written, but for one that an initializer has completed.
    have hbuilt {s : CType} (hs : s.Built) (hpart : Part (.array b len n) s) :
        b.size * len.getD 0 ≤ maxObjectSize := by
      cases hpart.built hs with
      | array _ _ hle => exact hle
    refine Nat.lt_of_le_of_lt ?_ (show maxObjectSize < UInt64.size by decide)
    rcases ht with ht | ⟨b', k, hb', -, rfl⟩
    · exact hbuilt ht hpart
    · cases hpart with
      | self => exact hsize
      | element hpart => exact hbuilt hb' hpart
  structs l n hpart :=
    (hpart.sound ht.sound).exists_table ((membersFit_iff ht.sound).mp hmembers l n hpart)

/-- Of types as they are written, only structs can be too large. -/
theorem Built.size_le {t : CType} (h : t.Built) (hs : t.StructsFit) : t.size ≤ maxObjectSize := by
  cases h with
  | primitive k => cases k <;> decide
  | pointer =>
    have hpointer : pointerSize ≤ maxObjectSize := by decide
    exact hpointer
  | array hb hv hsize => exact hsize
  | struct => exact hs _ _ .self

/-- The types that occur in a program have no struct that is not declared in it. -/
theorem inherited_structsFit : Typing.Inherited StructsFit where
  primitive k := by
    intro l n hpart
    cases hpart
  pointerTo t h := by
    intro l n hpart
    cases hpart with
    | pointee hpart => exact h l n hpart
  base b k h := fun l n hpart => h l n (.pointee hpart)
  element b len k h := fun l n hpart => h l n (.element hpart)
  member t name m h hm := by
    intro l n hpart
    cases t with
    | struct layout k => exact h l n (.member (List.mem_of_find?_eq_some hm) hpart)
    | _ => cases hm

end CType

def Var.Capped (x : Var) : Prop := x.type.size ≤ maxObjectSize ∧ x.type.MembersFit

/-- A variable keeps to the limit unless a struct or an initial value is too large. -/
theorem Var.capped_iff {x : Var} (ht : x.type.Sound) (hf : x.Filled) (hm : x.Measured) :
    x.Capped ↔ x.type.StructsFit ∧
      ∀ bytes, x.storage = .global (some bytes) → bytes.length ≤ maxObjectSize := by
  rw [Capped, CType.membersFit_iff ht]
  constructor
  · rintro ⟨hsize, hstructs⟩
    refine ⟨hstructs, fun bytes hb => ?_⟩
    rw [hf bytes hb]
    exact hsize
  · rintro ⟨hstructs, hbytes⟩
    refine ⟨?_, hstructs⟩
    -- Either the type is as it was written, or the initial bytes or the frame bound its size.
    rcases hm with hbuilt | ⟨bytes, hb⟩ | hframe
    · exact hbuilt.size_le hstructs
    · rw [← hf bytes hb]
      exact hbytes bytes hb
    · exact hframe.trans (by decide)

/-- Between two declarations the size of every variable is bounded. -/
theorem View.Top.measured {v : View} (h : v.Top) {id : VarId} {x : Var}
    (hx : v.program.vars[id]? = some x) : x.Measured := by
  rcases h.valid.measured id x hx with hm | hid
  · exact hm
  · rw [localIds, h.locals] at hid
    exact absurd hid List.not_mem_nil

/-- The types that the declarations of a program mention. -/
def Program.Declares (p : Program) (t : CType) : Prop :=
  (∃ (id : VarId) (x : Var), p.vars[id]? = some x ∧ x.type = t) ∨
    ∃ f ∈ p.functions, f.returnType = t

/-- The bodies of an elaborated program are typed. -/
theorem Program.typed_of_elaborate {p q : Program} (h : p.elaborate = .ok q) {f : Function}
    (hf : f ∈ q.functions) {body : Node} (hb : f.body = some body) :
    Typing.Typed ⟨p, f.returnType⟩ body := by
  have hyields : Yields p.elaborate fun q => ∀ f ∈ q.functions, ∀ body, f.body = some body →
      Typing.Typed ⟨p, f.returnType⟩ body := by
    refine .bind (Typing.yields_mapM fun f _ => Typing.yields_elaborateFunction p f) fun fs hfs =>
      .pure fun f' hf' body hb => ?_
    obtain ⟨f, -, he⟩ := Lists.exists_left_of_forall₂ hfs hf'
    exact (he.bodies body hb).2.1
  exact hyields.of_ok h f hf body hb

/-- The offsets of members are those of structs that the declarations mention. -/
theorem Typing.Typed.offset_le {p : Program} (hp : p.Valid)
    (hfit : ∀ t, p.Declares t → t.StructsFit) {u : CType} {i : Info} {b : Node} {name : String}
    {m : Member CType}
    (h : Typed ⟨p, u⟩ (.member i b name (some m))) : m.offset ≤ maxObjectSize := by
  cases h with
  | @member _ _ _ t _ hb hr ht hm =>
    -- The type of the struct goes back to a variable or to the result of a function.
    have hvars : ∀ (id : VarId) (x : Var), p.var? id = some x → x.type.StructsFit :=
      fun id x hx => hfit _ (Or.inl ⟨id, x, hx, rfl⟩)
    have hreturns : ∀ name f, p.function? name = some f → f.returnType.StructsFit :=
      fun name f hf => hfit _ (Or.inr ⟨f, (Program.function?_eq_some hf).1, rfl⟩)
    obtain ⟨u, hu, hsound⟩ := hb.sound (hp.sound _)
    cases hu.symm.trans ht
    obtain ⟨u, hu, hstructs⟩ := hb.inherits CType.inherited_structsFit hvars hreturns
    cases hu.symm.trans ht
    cases t with
    | struct l n =>
      have hend := hsound.member_end (List.mem_of_find?_eq_some hm)
      have hsize := hstructs l n .self
      omega
    | _ => cases hm

/-- The number that a function adds to an address is the offset of one of its members. -/
theorem Emission.Block.Of.addImm_le {p q : Program} (hp : p.Valid)
    (hfit : ∀ t, p.Declares t → t.StructsFit) (hq : p.elaborate = .ok q) {f : Function}
    (hf : f ∈ q.functions) {b : Block} (h : Block.Of q f b) {n : Nat}
    (hn : .instr (.addImm n .rax) ∈ b.lines) : n ≤ maxObjectSize := by
  have hn := Block.mem_body hn (by simp [headLines, tailLines])
  obtain ⟨hbody, hlines⟩ := h
  obtain ⟨i, e, name, m, hw, rfl⟩ := (emitsBody_refers hlines _ hn).of_addImm
  have htyped := Program.typed_of_elaborate hq hf hbody
  exact (htyped.within hw).offset_le hp hfit

/-- The offsets of a frame within the limit are words, and so is its size. -/
theorem Frame.lt_of_total_le {vars : Array Var} {ids : List VarId}
    (h : total vars ids ≤ maxFrameSize) : (ofLocals vars ids).size < UInt64.size ∧
      ∀ id k, (ofLocals vars ids).offset? id = some k → k < UInt64.size := by
  have hword : maxFrameSize + frameAlign < UInt64.size := by decide
  refine ⟨?_, fun id k hk => ?_⟩
  · have hround : roundUp (total vars ids) frameAlign ≤ total vars ids + frameAlign := by
      rw [roundUp]
      exact (Nat.div_mul_le_self _ _).trans (by omega)
    rw [ofLocals]
    dsimp only
    omega
  · have hend := (mem_place (mem_of_offset? hk)).2
    omega

/-- A variable keeps to the limit exactly if the structs in its type and its initial bytes do.
Frames always do, and where all declared structs do, so does every printed offset. In the type of a
variable that keeps to the limit no sum or product of sizes wraps, and in no frame does one. -/
theorem parse_capped_iff {source : String} {p : Program} (h : parse source = .ok p) :
    (∀ (id : VarId) (x : Var), p.vars[id]? = some x → (x.Capped ↔ x.type.StructsFit ∧
      ∀ bytes, x.storage = .global (some bytes) → bytes.length ≤ maxObjectSize)) ∧
    (∀ f ∈ p.functions, f.body.isSome = true → Frame.total p.vars f.locals ≤ maxFrameSize) ∧
    ((∀ t, p.Declares t → t.StructsFit) → ∀ text, compile source = .ok text →
      ∀ line ∈ linesOf text, ∀ n, Adds line n → n ≤ maxObjectSize) ∧
    (∀ (id : VarId) (x : Var), p.vars[id]? = some x → x.Capped → x.type.Unwrapped) ∧
    (∀ f ∈ p.functions, f.body.isSome = true →
      (Frame.ofLocals p.vars f.locals).size < UInt64.size ∧
      ∀ id k, (Frame.ofLocals p.vars f.locals).offset? id = some k → k < UInt64.size) := by
  rcases parse_top source with ⟨v, hv, htop⟩ | ⟨e, he, -⟩
  · cases hv.symm.trans h
    have hframes (f : Function) (hf : f ∈ v.program.functions) (hb : f.body.isSome = true) :
        Frame.total v.program.vars f.locals ≤ maxFrameSize := by
      obtain ⟨body, hb⟩ := Option.isSome_iff_exists.mp hb
      exact (htop.program.bodies f hf body hb).fits
    refine ⟨fun id x hx => ?_, hframes, fun hfit text htext line hline n hn => ?_,
      fun id x hx hcapped => ?_, fun f hf hb => Frame.lt_of_total_le (hframes f hf hb)⟩
    · exact Var.capped_iff (htop.valid.types id x hx) (htop.valid.filled id x hx) (htop.measured hx)
    · obtain ⟨q, blocks, hq, hout⟩ := compile_output htext
      have hresult : v.program.elaborate = .ok q := by
        rw [analyze, h] at hq
        exact hq
      rw [hout.linesOf_eq] at hline
      obtain ⟨x, hx, rfl⟩ := List.mem_map.mp hline
      obtain rfl := hn.eq_instr (hout.spelled x hx)
      obtain ⟨part, hpart, hx⟩ := List.mem_flatten.mp hx
      obtain ⟨b, -, rfl, f, hf, hof⟩ := hout.exists_block hpart hx
      exact hof.addImm_le htop.program hfit hresult hf hx
    · exact (htop.valid.formed id x hx).unwrapped hcapped.1 hcapped.2
  · cases he.symm.trans h

def widestSource : String :=
  "struct S \x7b char a[2147483646]; char c; \x7d s; int f() \x7b return s.c; \x7d"

def widestType : CType :=
  .struct ⟨1, some "S", [⟨"a", .array .char (some 2147483646) 2147483646, 0⟩,
    ⟨"c", .char, 2147483646⟩]⟩ 2147483647

theorem structsFit_widestType : widestType.StructsFit := by
  intro l n hpart
  cases hpart with
  | self => decide
  | member hm hpart =>
    -- The members are characters and an array of them.
    simp only [List.mem_cons, List.not_mem_nil, or_false] at hm
    rcases hm with rfl | rfl
    · cases hpart with
      | element hpart => cases hpart
    · cases hpart

/-- The largest struct is within the limit, and no sum of sizes in the program wraps. -/
theorem parse_capped_iff_widest :
    ∃ p x text, parse widestSource = .ok p ∧ p.vars.toList = [x] ∧ x.type.size = 2147483647 ∧
      (x.Capped ↔ x.type.StructsFit ∧
        ∀ bytes, x.storage = .global (some bytes) → bytes.length ≤ maxObjectSize) ∧ x.Capped ∧
      x.type.Unwrapped ∧
      (∀ f ∈ p.functions, f.body.isSome = true → Frame.total p.vars f.locals ≤ maxFrameSize) ∧
      (∀ f ∈ p.functions, f.body.isSome = true →
        (Frame.ofLocals p.vars f.locals).size < UInt64.size ∧
        ∀ id k, (Frame.ofLocals p.vars f.locals).offset? id = some k → k < UInt64.size) ∧
      compile widestSource = .ok text ∧ "  add $2147483646, %rax" ∈ linesOf text ∧
      ∀ line ∈ linesOf text, ∀ n, Adds line n → n ≤ maxObjectSize := by
  have hcheck : (parse widestSource).toOption.any (fun p =>
      p.vars.toList.map (fun x => (x.type, x.storage)) = [(widestType, .global none)] ∧
      p.functions.map (·.returnType) = [.int]) = true := by
    decide +kernel
  have hlines : (analyze widestSource).toOption.any (fun p => p.emit.toOption.any fun lines =>
      .instr (.addImm 2147483646 .rax) ∈ lines) = true := by
    decide +kernel
  obtain ⟨p, hp, hp'⟩ := exists_of_any hcheck
  obtain ⟨text, htext, hline⟩ := exists_text_of_emit hlines
  obtain ⟨hvars, hreturns⟩ := of_decide_eq_true hp'
  obtain ⟨x, hx, hpair⟩ := List.map_eq_singleton_iff.mp hvars
  obtain ⟨htype, hstorage⟩ := Prod.mk.inj hpair
  obtain ⟨hcapped, hframes, hadds, hunwrapped, hwords⟩ := parse_capped_iff hp
  have hget : p.vars[0]? = some x := by
    rw [← Array.getElem?_toList, hx]
    rfl
  have hfit : ∀ t, p.Declares t → t.StructsFit := by
    rintro t (⟨id, y, hy, rfl⟩ | ⟨f, hf, rfl⟩)
    · rw [← Array.getElem?_toList, hx] at hy
      obtain rfl := List.mem_singleton.mp (List.mem_of_getElem? hy)
      exact htype ▸ structsFit_widestType
    · have hmem : f.returnType ∈ p.functions.map (·.returnType) := List.mem_map_of_mem hf
      rw [hreturns] at hmem
      rw [List.mem_singleton.mp hmem]
      exact CType.inherited_structsFit.primitive .int
  have hiff := hcapped 0 x hget
  have hx' : x.Capped := by
    refine hiff.mpr ⟨htype ▸ structsFit_widestType, fun bytes hb => ?_⟩
    cases hstorage.symm.trans hb
  exact ⟨p, x, text, hp, hx, htype ▸ rfl, hiff, hx', hunwrapped 0 x hget hx', hframes,
    hwords, htext, hline, hadds hfit text htext⟩

/-- The same struct with one member more, which is accepted as well. -/
def oversizedSource : String :=
  "struct S \x7b char a[2147483647]; char b; char c; \x7d s; int f() \x7b return s.c; \x7d"

/-- Structs are accepted beyond the limit, and so are offsets that no 32-bit field can hold. -/
theorem not_capped_oversized :
    ∃ p x text, parse oversizedSource = .ok p ∧ p.vars.toList = [x] ∧ x.type.size = 2147483649 ∧
      ¬x.Capped ∧ compile oversizedSource = .ok text ∧
      "  add $2147483648, %rax" ∈ linesOf text := by
  have hcheck : (parse oversizedSource).toOption.any (fun p =>
      p.vars.toList.map (·.type.size) = [2147483649]) = true := by
    decide +kernel
  have hlines : (analyze oversizedSource).toOption.any (fun p => p.emit.toOption.any fun lines =>
      .instr (.addImm 2147483648 .rax) ∈ lines) = true := by
    decide +kernel
  obtain ⟨p, hp, hp'⟩ := exists_of_any hcheck
  obtain ⟨text, htext, hline⟩ := exists_text_of_emit hlines
  obtain ⟨x, hx, hsize⟩ := List.map_eq_singleton_iff.mp (of_decide_eq_true hp')
  refine ⟨p, x, text, hp, hx, hsize, fun hcapped => ?_, htext, hline⟩
  have hle := hcapped.1
  rw [hsize] at hle
  exact absurd hle (by decide)

end StackC
