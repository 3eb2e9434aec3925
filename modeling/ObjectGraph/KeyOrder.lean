import ObjectGraph.Bytes

namespace ObjectGraph

abbrev KeyOrder := Bytes → Bytes → Ordering

namespace KeyOrder

def lexicographic : KeyOrder := fun a b => compare a b

/-- The last byte of a key is a remark on it: keys that differ only there are equal. -/
def ignoringLast : KeyOrder := fun a b => compare a.dropLast b.dropLast

end KeyOrder

end ObjectGraph
