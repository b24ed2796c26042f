import FuseMap.SumOfProducts.Basic

/-! # Listing of sums

A sum is listed with one term per line, the operators below the equals sign:

```
pin23 = pin10 & !pin11
      # !pin10 & pin11;
```
-/

namespace FuseMap

/-- The name of a pin; a pin without one is named by its number, and of two names the last
counts. -/
def pinName (names : List (Int × String)) (pin : Int) : String :=
  (names.reverse.lookup pin).getD s!"pin{pin}"

/-- A literal in a listing. -/
def Literal.listing (names : List (Int × String)) (l : Literal) : String :=
  (if l.inverted then "!" else "") ++ pinName names l.pin

/-- A term in a listing; the empty term is the constant true. -/
def ProductTerm.listing (names : List (Int × String)) (t : ProductTerm) : String :=
  let text := " & ".intercalate (t.map (Literal.listing names))
  if text.isEmpty then "'b'1" else text

/-- The listing of a sum; a sum without terms is the constant false. -/
def SumOfProducts.listing (names : List (Int × String)) (s : SumOfProducts) : String :=
  let name := pinName names s.outputPin ++ if s.registered then ".dff" else ""
  match s.terms with
  | [] => name ++ " = 'b'0;\n"
  | term :: rest =>
    let indent := String.ofList (List.replicate name.length ' ')
    let first := name ++ " = " ++ term.listing names
    let others := rest.map fun t => indent ++ " # " ++ t.listing names
    "\n".intercalate (first :: others) ++ ";\n"

end FuseMap
