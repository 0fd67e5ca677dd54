/-!
# Text in byte order

Texts are ordered by their UTF-8 bytes, the first different byte deciding and an initial part coming
before the whole.
-/
namespace Reckoner.Text

def bytes (s : String) : List UInt8 := s.toUTF8.data.toList

theorem bytes_injective {a b : String} (h : bytes a = bytes b) : a = b :=
  String.toByteArray_inj.1 (ByteArray.ext (Array.toList_inj.1 h))

def byteOrder : String → String → Ordering := compareOn bytes

instance : Std.TransCmp byteOrder := inferInstanceAs (Std.TransCmp (compareOn bytes))

instance : Std.LawfulEqCmp byteOrder where
  eq_of_compare {_ _} h :=
    bytes_injective (Std.LawfulEqOrd.eq_of_compare h)

end Reckoner.Text
