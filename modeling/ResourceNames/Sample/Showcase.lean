/-!
A source that shows the whole grammar.

The source declares a class with every sort of member, statement and expression. Further copies
of it stand in the same unit: the class has another name in each of them, and only the first
copy declares the package.
-/
namespace ResourceNames.Sample

namespace Showcase

def imports : List String :=
  [ "",
    "import java.util.List;",
    "import static java.lang.Math.*;",
    "import java.util.*;",
    "" ]

def fields (name : String) : List String :=
  [ "@SuppressWarnings(value = \"all\")",
    "@Retention(policy = Retention.RUNTIME, other = \x7b1, 2,\x7d)",
    "@Marker(\x7b1, 2\x7d)",
    "@Wrap(@Inner)",
    "@Plain",
    "public abstract strictfp class " ++ name ++ "<",
    "        @Nonnull T extends Comparable<T> & java.io.Serializable,",
    "        U extends Number>",
    "        extends java.util.AbstractList<T>",
    "        implements java.io.Serializable, Cloneable \x7b",
    "",
    "    ;",
    "    transient volatile int f1 = 42, f2[] = \x7b1, 2, 3,\x7d;",
    "    protected List<? extends Number> covariant;",
    "    private List<? super Integer> contra;",
    "    private List<?> wildcard;",
    "    private java.util.Map.Entry<String, String> dotted;",
    "    static final int HEX = 0x7F010001;",
    "    static final int OCT = 0777;",
    "    static final int BIN = 0b1010_1010;",
    "    static final double DBL = 1.25e3;",
    "    static final float HF = 0x1.8p3f;",
    "    static final char CH = '\\n';",
    "    static final String S = \"hello\";",
    "    static final boolean B = true;",
    "    static final Object N = null;",
    "    private @Nonnull String annotated;",
    "" ]

def methods (name : String) : List String :=
  [ "    static \x7b int z = 1; \x7d",
    "    \x7b f1 = 2; \x7d",
    "",
    "    public " ++ name ++ "() throws Exception \x7b super(); this.f1 = 0; \x7d",
    "    public " ++ name ++ "(int q) \x7b super(q); this(q, q); \x7d",
    "    protected <V extends Number> " ++ name ++ "(V v) \x7b this(); \x7d",
    "",
    "    @Override",
    "    public native synchronized int size();",
    "",
    "    public <V extends CharSequence> V generic(V v, final int... rest)",
    "            throws java.io.IOException, RuntimeException \x7b",
    "        return v;",
    "    \x7d",
    "",
    "    void varargsOnly(int... only) \x7b \x7d",
    "    int[] arrayReturn() [] \x7b return new int[] \x7b1, 2\x7d; \x7d",
    "    abstract void emptyBody();",
    "" ]

def expressions : List String :=
  [ "    void body(final @Nonnull int p, java.util.Map<String, ? extends T> m)",
    "            throws Exception \x7b",
    "        final int loc = 1;",
    "        @Nonnull int loc2 = 2;",
    "        int a = 1 + 2 * 3 / 4 % 5 - 6;",
    "        int b = (a << 1) >> 2 >>> 3;",
    "        boolean c = a < b && b <= a || a > b && b >= a;",
    "        boolean d = a == b ^ a != b;",
    "        int e = a & b | a ^ b;",
    "        int g = ~a; boolean h = !c;",
    "        int i2 = c ? a : b;",
    "        a += 1; a -= 1; a *= 2; a /= 2; a %= 2;",
    "        a &= 3; a |= 3; a ^= 3; a <<= 1; a >>= 1; a >>>= 1;",
    "        a++; ++a; a--; --a; a = +a; a = -a;",
    "        Object cast = (Object & java.io.Serializable) \"x\";",
    "        String inst = cast instanceof String ? (String) cast : null;",
    "        int[] arr = new int[3]; arr[0] = 1;",
    "        int[][] arr2 = new int[2][3];",
    "        int[][] arr3 = new int[][] \x7b\x7b1, 2\x7d, \x7b3\x7d\x7d;",
    "        int[] arr4 = \x7b\x7d;",
    "        java.util.ArrayList<String> diamond = new java.util.ArrayList<>();",
    "        java.util.ArrayList<String> full = new java.util.ArrayList<String>(3);",
    "        Outer.Inner oi = new Outer().new Inner();",
    "        Outer.Inner oi2 = new Outer().new <String>Inner() \x7b \x7d;",
    "        Outer.GInner<String> oi3 = new Outer().new GInner<String>();",
    "        Outer.GInner<String> oi4 = new Outer().new GInner<>();",
    "        Object anon = new Object() \x7b int x() \x7b return 1; \x7d \x7d;",
    "        Object gen = new <String>java.util.ArrayList<String>();",
    "        Object gen2 = new Outer<String>.Inner();" ]

def references (name : String) : List String :=
  [ "        Runnable r1 = () -> System.out.println();",
    "        Runnable r2 = x -> x;",
    "        java.util.function.BiFunction<Integer,Integer,Integer> r3 =",
    "            (Integer q, Integer w) -> \x7b return q + w; \x7d;",
    "        java.util.function.BiFunction<Integer,Integer,Integer> r4 =",
    "            (q, w) -> q + w;",
    "        Runnable mref1 = System.out::println;",
    "        java.util.function.Supplier<List<String>> mref2 =",
    "            java.util.ArrayList<String>::new;",
    "        java.util.function.Function<int[], Object> mref3 = int[]::clone;",
    "        Runnable mref3b = int[]::<String>clone;",
    "        Runnable mref4 = super::toString;",
    "        Runnable mref5 = " ++ name ++ ".super::toString;",
    "        Runnable mref6 = java.util.ArrayList::<String>new;",
    "        Runnable mref7 = String::<Integer>valueOf;",
    "        Class<?> klass = int.class;",
    "        Class<?> klass2 = void.class;",
    "        Class<?> klass3 = String[].class;",
    "        Object sup = " ++ name ++ ".super.toString();",
    "        Object sup2 = super.toString();",
    "        Object sup3 = " ++ name ++ ".super(1);",
    "        Object sup4 = " ++ name ++ ".super.field;",
    "        int primThis = " ++ name ++ ".this.f1;",
    "        this.<String>generic(\"x\");",
    "        " ++ name ++ ".<String>helper(\"a\");",
    "        Object egi = this.<String>helper(\"b\");",
    "        Object sgi = super.<String>toString();",
    "        Object primGen = <String>this(\"z\");",
    "        Object primGen2 = <String>helper(\"y\");",
    "        Object primGen3 = <String>super.toString();",
    "        Object primGen4 = <String>super(1);" ]

def statements : List String :=
  [ "        outer:",
    "        for (int i = 0, j = 0; i < 3; i++, j++) \x7b continue outer; \x7d",
    "        for (a = 0, b = 0; ; ) \x7b break; \x7d",
    "        for (final String s : diamond) \x7b \x7d",
    "        while (c) \x7b break; \x7d",
    "        do \x7b a++; \x7d while (a < 0);",
    "        if (c) \x7b a = 1; \x7d else if (d) \x7b a = 2; \x7d else a = 3;",
    "        lbl:",
    "        switch (a) \x7b",
    "            case 1:",
    "            case 2: a = 9; break lbl;",
    "            default: a = 0;",
    "            case 3:",
    "        \x7d",
    "        switch (Colour.RED) \x7b case RED: break; \x7d",
    "        synchronized (this) \x7b a = 1; \x7d",
    "        try \x7b a = 1; \x7d catch (RuntimeException | Error ex) \x7b throw ex; \x7d",
    "          catch (final Exception ex2) \x7b \x7d finally \x7b a = 2; \x7d",
    "        try \x7b a = 1; \x7d finally \x7b a = 2; \x7d",
    "        try (java.io.Reader rd = new java.io.StringReader(\"x\");",
    "             final java.io.Reader rd2 = new java.io.StringReader(\"y\");) \x7b",
    "            rd.read();",
    "        \x7d catch (Exception ex3) \x7b \x7d finally \x7b a = 3; \x7d",
    "        assert c;",
    "        assert c : \"msg\";",
    "        return;",
    "        ;",
    "        class Local implements Runnable \x7b public void run() \x7b \x7d \x7d",
    "        @Deprecated interface LocalI \x7b \x7d",
    "    \x7d",
    "" ]

def enums : List String :=
  [ "    static <V> V helper(V v) \x7b return v; \x7d",
    "",
    "    enum Colour implements java.io.Serializable \x7b",
    "        @Deprecated RED(1) \x7b int extra() \x7b return 1; \x7d \x7d,",
    "        GREEN(2),",
    "        BLUE,",
    "        ;",
    "        final int code;",
    "        Colour() \x7b this(0); \x7d",
    "        Colour(int c) \x7b this.code = c; \x7d",
    "    \x7d",
    "",
    "    enum Empty \x7b \x7d",
    "" ]

def interfaces : List String :=
  [ "    interface Shape<Q> extends java.io.Serializable, Cloneable \x7b",
    "        int AREA = 1, PERIM[] = \x7b1\x7d;",
    "        @Deprecated",
    "        public abstract int area() throws Exception;",
    "        default int perim() \x7b return 0; \x7d",
    "        static strictfp int zero() \x7b return 0; \x7d",
    "        <V extends Number> V conv(V v);",
    "        <V> @Nonnull int annotated(V v);",
    "        default <V> V dflt(V v) [] \x7b return null; \x7d",
    "        <V> int tp(V v);",
    "        class InnerC \x7b \x7d",
    "        interface InnerI \x7b \x7d",
    "        enum InnerE \x7b A \x7d",
    "        @interface InnerA \x7b \x7d",
    "        ;",
    "    \x7d",
    "",
    "    @interface Marker \x7b",
    "        public abstract String value() default \"x\";",
    "        int[] nums() default \x7b1, 2\x7d;",
    "        Class<?> klass();",
    "        int CONST = 7;",
    "        class AnnInnerClass \x7b \x7d;",
    "        interface AnnInnerIface \x7b \x7d;",
    "        enum AnnInnerEnum \x7b X \x7d;",
    "        @interface AnnInnerAnn \x7b \x7d;",
    "        ;",
    "    \x7d",
    "" ]

def others : List String :=
  [ "    static class Outer \x7b",
    "        class Inner \x7b <Z> Inner() \x7b \x7d Inner() \x7b \x7d \x7d",
    "        class GInner<Z> \x7b \x7d",
    "    \x7d",
    "\x7d",
    "",
    ";",
    "",
    "enum TopEnum \x7b A, B; \x7d",
    "interface TopIface \x7b \x7d",
    "@interface TopAnn \x7b \x7d" ]

def package : List String :=
  [ "@Deprecated",
    "package com.example.full;" ]

def copy (name : String) : List String :=
  imports ++ fields name ++ methods name ++ expressions ++
    references name ++ statements ++ enums ++ interfaces ++ others

def className : Nat → String
  | 0 => "Everything"
  | n + 1 => "Everything" ++ toString (n + 1)

def block (n : Nat) : List String :=
  "" :: ((if n = 0 then package else []) ++ copy (className n))

end Showcase

def showcase (copies : Int) : String :=
  String.join (((List.range (max 1 copies.toNat)).flatMap Showcase.block).map fun l => l ++ "\n")

end ResourceNames.Sample
