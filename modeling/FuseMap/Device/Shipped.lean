import FuseMap.Json.Printer

/-! # Shipped profiles

The profile file that comes with the program.
-/

namespace FuseMap.Device

open FuseMap.Json (Value)

def shippedName : String := "devices.config"

/-- An output cell of a 22V10; the mode bits of the cells follow one another. -/
def cell22v10 (index : Nat) (pin firstRow termRows : Int) : Value :=
  .object [
    ("pin", .integer pin),
    ("first_row", .integer firstRow),
    ("term_rows", .integer termRows),
    ("oe_row", .bool true),
    ("mode_bits", .object [
      ("polarity", .integer (5808 + 2 * index)),
      ("combinatorial", .integer (5809 + 2 * index))])]

/-- The profile of a 22V10. -/
def profile22v10 : Value :=
  .object [
    ("device_name", .string "GAL22V10"),
    ("pin_count", .integer 24),
    ("fuse_count", .integer 5892),
    ("column_pins", .array ([1, 23, 2, 22, 3, 21, 4, 20, 5, 19, 6, 18, 7, 17, 8, 16, 9, 15, 10, 14,
      11, 13].map .integer)),
    ("input_pins", .array ([1, 2, 3, 4, 5, 6, 7, 8, 9, 10, 11, 13, 14, 15, 16, 17, 18, 19, 20, 21,
      22, 23].map .integer)),
    ("output_pins", .array ([14, 15, 16, 17, 18, 19, 20, 21, 22, 23].map .integer)),
    ("connected_fuse", .integer 0),
    ("outputs", .array [
      cell22v10 0 23 1 8,
      cell22v10 1 22 10 10,
      cell22v10 2 21 21 12,
      cell22v10 3 20 34 14,
      cell22v10 4 19 49 16,
      cell22v10 5 18 66 16,
      cell22v10 6 17 83 14,
      cell22v10 7 16 98 12,
      cell22v10 8 15 111 10,
      cell22v10 9 14 122 8]),
    ("mode_values", .object [
      ("polarity_active_high", .integer 1),
      ("combinatorial", .integer 1),
      ("registered", .integer 0)]),
    ("global_rows", .object [
      ("asynchronous_reset", .integer 0),
      ("synchronous_preset", .integer 131)]),
    ("regions", .array [
      .object [
        ("name", .string "macrocell mode bits"),
        ("offset", .integer 5808),
        ("width", .integer 20)],
      .object [
        ("name", .string "user electronic signature"),
        ("offset", .integer 5828),
        ("width", .integer 64)]])]

def shippedProfiles : Value := .object [("g22v10", profile22v10)]

/-- The text of the shipped file. -/
def shippedText : String := shippedProfiles.indented ++ "\n"

end FuseMap.Device
