/-! Lines of a text that arrives as bytes. -/
namespace StoreAudit.Text

/-- Without one carriage return at the end. -/
def dropReturn (line : List UInt8) : List UInt8 :=
  if line.getLast? = some 13 then line.dropLast else line

/-- The bytes before each line feed, without the carriage return that may stand there too. What
follows the last line feed is a line only if it has bytes, and is kept as it is. -/
def splitLines (bytes : List UInt8) : List (List UInt8) :=
  let parts := bytes.splitOn 10
  let last := parts.getLastD []
  parts.dropLast.map dropReturn ++ if last = [] then [] else [last]

/-- The text of each line, or `none` where its bytes are not UTF-8. -/
def lines (bytes : ByteArray) : List (Option String) :=
  (splitLines bytes.toList).map fun line => String.fromUTF8? line.toByteArray

end StoreAudit.Text
