/-!
Texts as bytes of UTF-8.
-/

namespace PdfGraphics.Text

def ofUtf8? (bytes : List UInt8) : Option String :=
  String.fromUTF8? ⟨bytes.toArray⟩

def utf8 (s : String) : List UInt8 :=
  s.toUTF8.data.toList

end PdfGraphics.Text
