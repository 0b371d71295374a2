/-!
A sample file of resources.

Seven groups declare equally many resources each, with numbers that follow each other from the
first one on.
-/
namespace ResourceNames.Sample

def firstId : Int := 0x7F010000

def groups : List String := ["anim", "attr", "drawable", "id", "layout", "string", "style"]

/-- How many resources each group has when `n` are asked for in all: at least one. -/
def perGroup (n : Int) : Nat := max 1 (n.fdiv 7).toNat

def declaration (group : String) (index : Nat) (id : Int) : String :=
  "        public static final int res_" ++ group ++ "_" ++ toString index ++ " = " ++
    toString id ++ ";\n"

def groupClass (group : String) (per : Nat) (id : Int) : String :=
  "    public static final class " ++ group ++ " \x7b\n" ++
    String.join ((List.range per).map fun j => declaration group j (id + j)) ++ "    \x7d\n"

def groupClasses (per : Nat) : List String → Int → String
  | [], _ => ""
  | group :: rest, id => groupClass group per id ++ groupClasses per rest (id + per)

def countClasses (per : Nat) : List String → Nat
  | [] => 0
  | _ :: rest => (List.range per).length + countClasses per rest

def resourceFile (n : Int) : String :=
  "package com.example.app;\npublic final class R \x7b\n" ++
    groupClasses (perGroup n) groups firstId ++ "\x7d\n"

def resourceCount (n : Int) : Nat := countClasses (perGroup n) groups

end ResourceNames.Sample
