import StackC.CType.Basic

/-!
Nested scopes. A scope binds variables and struct tags apart from each other; an inner binding hides
an outer one of the same name, and a scope binds a name at most once.
-/

namespace StackC

abbrev VarId := Nat

/-- The bindings of the open scopes, scope by scope from the innermost one outwards. -/
abbrev Chain (α : Type) := List (List (String × α))

namespace Chain

variable {α : Type}

def find? (c : Chain α) (name : String) : Option α := c.findSome? (·.lookup name)

def innermost? (c : Chain α) (name : String) : Option α := c.head?.bind (·.lookup name)

def outermost? (c : Chain α) (name : String) : Option α := c.getLast?.bind (·.lookup name)

/-- Binds a name in the innermost scope, unless that scope binds it already, and tells whether it
did. -/
def declare (c : Chain α) (name : String) (a : α) : Bool × Chain α :=
  match c with
  | [] => (false, [])
  | link :: outer =>
    if (link.lookup name).isSome then (false, link :: outer)
    else (true, ((name, a) :: link) :: outer)

end Chain

/-- The scopes that are open at a place of the source text: a chain of variables and a chain of
struct tags. At first there is only the file scope. -/
structure Scopes where
  vars : Chain VarId := [[]]
  tags : Chain CType := [[]]

namespace Scopes

instance : Inhabited Scopes := ⟨{}⟩

def enter (s : Scopes) : Scopes := ⟨[] :: s.vars, [] :: s.tags⟩

/-- Closes the innermost scope on both chains. The file scope is never closed. -/
def leave (s : Scopes) : Scopes :=
  if 1 < s.vars.length then ⟨s.vars.tail, s.tags.tail⟩ else s

def depth (s : Scopes) : Nat := s.vars.length

def isFileLevel (s : Scopes) : Bool := s.depth == 1

def var? (s : Scopes) (name : String) : Option VarId := s.vars.find? name

def innermostVar? (s : Scopes) (name : String) : Option VarId := s.vars.innermost? name

def fileVar? (s : Scopes) (name : String) : Option VarId := s.vars.outermost? name

def tag? (s : Scopes) (name : String) : Option CType := s.tags.find? name

def declareVar (s : Scopes) (name : String) (id : VarId) : Bool × Scopes :=
  let r := s.vars.declare name id
  (r.1, { s with vars := r.2 })

def declareTag (s : Scopes) (name : String) (t : CType) : Bool × Scopes :=
  let r := s.tags.declare name t
  (r.1, { s with tags := r.2 })

def declareVar? (s : Scopes) (name : String) (id : VarId) : Option Scopes :=
  let r := s.declareVar name id
  if r.1 then some r.2 else none

def declareTag? (s : Scopes) (name : String) (t : CType) : Option Scopes :=
  let r := s.declareTag name t
  if r.1 then some r.2 else none

end Scopes

end StackC
