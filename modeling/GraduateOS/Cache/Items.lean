import GraduateOS.Library.Strcmp

namespace GraduateOS.Cache.Items

open Library.CStrings Library.Sorting Library.Strcmp

/-- `item_t`, with the text in its array `key`. -/
structure Item where
  fildes : Int
  key : CString

def itemcmp (a b : Item) : Int := strcmp a.key b.key

theorem itemcmp_threeWay : ThreeWay itemcmp := strcmp_threeWay.on Item.key

end GraduateOS.Cache.Items
