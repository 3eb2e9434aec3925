import ObjectGraph.Bytes

namespace ObjectGraph.Utf8

def encode (s : String) : Bytes := s.toByteArray.data.toList

def decode? (bs : Bytes) : Option String := String.fromUTF8? ⟨bs.toArray⟩

end ObjectGraph.Utf8
