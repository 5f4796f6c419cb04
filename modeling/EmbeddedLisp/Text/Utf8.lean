/-!
# Texts as bytes

Text leaves and enters the program as the bytes of its UTF-8 form. Not every
sequence of bytes is the form of a text.
-/

set_option autoImplicit false

namespace EmbeddedLisp

def utf8 (text : String) : List UInt8 := text.toUTF8.data.toList

def ofUtf8? (bytes : List UInt8) : Option String := String.fromUTF8? ⟨bytes.toArray⟩

end EmbeddedLisp
