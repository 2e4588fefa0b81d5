namespace JavaSyntax.Sample

/-- The lines that are the same in all methods. -/
def statements : List String :=
  ["        for (int x : xs) \x7b",
  "            if (x > total && !skip(x)) total += x; else total -= 1;",
  "        \x7d",
  "        Object a = java.util.ArrayList::new;",
  "        Object b = String::valueOf;",
  "        Object c = java.util.HashMap.class;",
  "        try \x7b",
  "            this.sink(a, b, c);",
  "        \x7d catch (IllegalStateException e) \x7b",
  "            return -1;",
  "        \x7d",
  "        return (total + rest.length) % 7;",
  "    \x7d",
  ""]

/-- The lines of one method. Its number stands in its name and in a literal. -/
def method (number : Nat) : List String :=
  ("    public int method" ++ toString number ++ "(int[] xs, final String... rest) \x7b") ::
  ("        int total = " ++ toString number ++ ";") :: statements

/-- The lines of a class with some number of methods. -/
def lines (methods : Nat) : List String :=
  "public class Synthetic \x7b" :: ((List.range methods).flatMap method ++ ["\x7d"])

/-- A source of any length, with every kind of declaration, of statement and of ambiguous name. -/
def source (methods : Nat) : String := String.join ((lines methods).map (· ++ "\n"))

end JavaSyntax.Sample
