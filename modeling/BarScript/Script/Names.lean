import BarScript.Script.Tree

/-!
# The names in a tree

Every name that a script spells out, at any depth: declared names, parameters,
names of functions, and names used in expressions. Fields and keys are no
names.
-/

namespace BarScript

def Pattern.names (p : Pattern) : List String :=
  p.boundNames.map Ident.name

mutual

def Expr.names : Expr → List String
  | .ident id => [id.name]
  | .member base _ => base.names
  | .index base sub => base.names ++ sub.names
  | .call callee args => callee.names ++ Expr.listNames args
  | .unary _ arg => arg.names
  | .update _ _ target => target.names
  | .binary _ left right => left.names ++ right.names
  | .logical _ left right => left.names ++ right.names
  | .conditional test consequent alternate => test.names ++ consequent.names ++ alternate.names
  | .assign _ target value => target.names ++ value.names
  | .array items => Expr.listNames items
  | .object props => Expr.propNames props
  | .func f => f.names
  | .number _ | .str _ | .bool _ | .null | .undefined | .this => []

def Expr.listNames : List Expr → List String
  | [] => []
  | e :: rest => e.names ++ Expr.listNames rest

def Expr.propNames : List (String × Expr) → List String
  | [] => []
  | (_, e) :: rest => e.names ++ Expr.propNames rest

def Expr.optNames : Option Expr → List String
  | none => []
  | some e => e.names

def Func.names : Func → List String
  | ⟨name, params, body, _, _⟩ =>
    (name.map Ident.name).toList ++ params.map Ident.name ++
      match body with
      | .block stmts => Stmt.listNames stmts
      | .expr e => e.names

def Stmt.names : Stmt → List String
  | .decl d => d.names
  | .expr e => e.names
  | .branch test consequent alternate =>
    test.names ++ consequent.names ++
      match alternate with
      | none => []
      | some s => s.names
  | .forLoop init test update body =>
    (match init with
      | none => []
      | some (.decl d) => d.names
      | some (.expr e) => e.names) ++
      Expr.optNames test ++ Expr.optNames update ++ body.names
  | .whileLoop test body => test.names ++ body.names
  | .block stmts => Stmt.listNames stmts
  | .ret arg => Expr.optNames arg
  | .func f => f.names
  | .breakLoop | .continueLoop | .empty => []

def Stmt.listNames : List Stmt → List String
  | [] => []
  | s :: rest => s.names ++ Stmt.listNames rest

def Decl.names : Decl → List String
  | ⟨_, declarators⟩ => Declarator.listNames declarators

def Declarator.listNames : List Declarator → List String
  | [] => []
  | ⟨target, init, _⟩ :: rest =>
    target.names ++ Expr.optNames init ++ Declarator.listNames rest

end

end BarScript
