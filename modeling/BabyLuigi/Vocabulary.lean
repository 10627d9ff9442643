/-!
# Shared vocabulary

Strings of the program are byte strings.
-/

set_option autoImplicit false

namespace BabyLuigi

/-- A `std::string`: any bytes, embedded zeros and invalid UTF-8 included. -/
abbrev Str := List UInt8

/-- The bytes of an ASCII literal. -/
def ascii (literal : String) : Str := literal.toList.map fun char => char.toNat.toUInt8

end BabyLuigi
