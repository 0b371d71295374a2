import ResourceNames.Sample.Resources
import ResourceNames.Text.Numeral

/-!
A sample source that uses resources by their numbers.
-/
namespace ResourceNames.Sample

open Text

/-- The number used in the call with an index: the numbers go around from `base` on, `span` of
them. -/
def usedId (base span : Int) (index : Nat) : Int :=
  base + (if span = 0 then 0 else Int.fmod index span)

def usage (id : Int) (index : Nat) : String :=
  "        acc += call(0x" ++ paddedHex id ++ ", " ++ toString index ++ ");\n"

def consumer (n : Int) (base : Int := firstId) (span : Int := 1) : String :=
  "package com.example.app;\nimport android.view.View;\npublic class Consumer \x7b\n" ++
    "    public int use() \x7b\n        int acc = 0;\n" ++
    String.join ((List.range n.toNat).map fun i => usage (usedId base span i) i) ++
    "        return acc;\n    \x7d\n" ++
    "    private int call(int a, int b) \x7b return a + b; \x7d\n\x7d\n"

end ResourceNames.Sample
