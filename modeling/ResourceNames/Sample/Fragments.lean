import ResourceNames.Java.Parser

/-!
Sample fragments of source, each for a rule that whole units seldom use.
-/
namespace ResourceNames.Sample

open Java

def fragments : List (Rule × String) :=
  [ (.interfaceMethodModifier, "public"),
    (.interfaceMethodModifier, "abstract"),
    (.interfaceMethodModifier, "default"),
    (.interfaceMethodModifier, "static"),
    (.interfaceMethodModifier, "strictfp"),
    (.interfaceMethodModifier, "@Deprecated"),
    (.genericInterfaceMethodDeclaration, "<V> public int m();"),
    (.localTypeDeclaration, ";"),
    (.nonWildcardTypeArgumentsOrDiamond, "<>"),
    (.nonWildcardTypeArgumentsOrDiamond, "<String>"),
    (.classType, "Outer.Inner<String>"),
    (.classType, "Outer.@A Inner"),
    (.explicitGenericInvocationSuffix, "super(1)"),
    (.explicitGenericInvocationSuffix, "foo(1)"),
    (.superSuffix, "(1, 2)"),
    (.methodCall, "super(1, 2)"),
    (.annotationTypeElementDeclaration, "public int x();") ]

def fragmentTree (fragment : Rule × String) : Tree :=
  ((Parser.ofSource (.ofString fragment.2)).parse fragment.1).1

end ResourceNames.Sample
