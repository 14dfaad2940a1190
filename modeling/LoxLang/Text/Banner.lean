/-!
# Banners

A dump is a list of lines between two banners of twenty tildes.  The upper one carries a title in
its middle; where the tildes cannot be halved the right side has one more, and a title that is
too long stands alone.
-/

namespace LoxLang
namespace Text

/-- How wide a banner is. -/
def bannerWidth : Nat := 20

/-- The title between two runs of the fill character, as near the middle as it goes. -/
def centred (width : Nat) (fill : Char) (title : String) : String :=
  let room := width - title.length
  let left := room / 2
  String.ofList (List.replicate left fill) ++ title ++
    String.ofList (List.replicate (room - left) fill)

/-- The content, one item a line, between two banners of which the first names it. -/
def banner (name : String) (content : List String) : String :=
  centred bannerWidth '~' (" " ++ name ++ " Dump ") ++ "\n" ++
    String.join (content.map (· ++ "\n")) ++
    String.ofList (List.replicate bannerWidth '~') ++ "\n"

example : centred 20 '~' " Locals Dump " = "~~~ Locals Dump ~~~~" := by decide +kernel

end Text
end LoxLang
