import Ember.Database.StoreError

namespace Ember

/-- What the bytes of a file are to a database: nothing yet, or a stored database. One may be
allowed to add to it, and its first page may have room where it should. -/
inductive Image where
  | blank
  | stored (writable roomy : Bool)
  deriving DecidableEq

namespace Image

/-- The text that every database begins with. -/
def title : List UInt8 := Source.bytes (Source.ofString "SQLite format 3\x00")

/-- The byte at an offset, zero past the end. -/
def byteAt (bytes : List UInt8) (offset : Nat) : Nat := (bytes.getD offset 0).toNat

/-- The number in `width` bytes at an offset, the highest byte first. -/
def numberAt (bytes : List UInt8) (offset width : Nat) : Nat :=
  (List.range width).foldl (fun n i => 256 * n + byteAt bytes (offset + i)) 0

/-- The bytes in a page. The two bytes of the header stand for multiples of 256 and 65536. -/
def pageSize (bytes : List UInt8) : Nat := byteAt bytes 16 * 256 + byteAt bytes 17 * 65536

def pageSizes : List Nat := [512, 1024, 2048, 4096, 8192, 16384, 32768, 65536]

/-- The bytes of a page without those kept back at its end. -/
def usableSize (bytes : List UInt8) : Nat := pageSize bytes - byteAt bytes 20

/-- The header is that of a database, as far as reading its pages goes. -/
def hasHeader (bytes : List UInt8) : Bool :=
  bytes.take 16 = title && byteAt bytes 19 ≤ 2 && (bytes.drop 21).take 3 = [64, 32, 32] &&
    pageSizes.contains (pageSize bytes)

/-- The file has the pages that its header counts. The count is believed if it was written with
the last change. -/
def isComplete (bytes : List UInt8) : Bool :=
  numberAt bytes 24 4 != numberAt bytes 92 4 ||
    numberAt bytes 28 4 ≤ (bytes.length + pageSize bytes - 1) / pageSize bytes

/-- The first page is a leaf of a table. -/
def hasSchema (bytes : List UInt8) : Bool := byteAt bytes 100 = 13

/-- If the first page has no entries, all of it is free. -/
def isRoomy (bytes : List UInt8) : Bool :=
  numberAt bytes 103 2 != 0 || numberAt bytes 105 2 = usableSize bytes % 65536

/-- Looks at the bytes of a file. A single byte is not looked at. -/
def ofBytes (bytes : List UInt8) : Except StoreError Image :=
  if bytes.length ≤ 1 then .ok blank
  else if !hasHeader bytes then .error .notDatabase
  else if !isComplete bytes then .error .malformed
  else if usableSize bytes < 480 then .error .notDatabase
  else if 4 < byteAt bytes 47 then .error .unsupportedFormat
  else if !hasSchema bytes then .error .malformed
  else .ok (stored (byteAt bytes 18 ≤ 2) (isRoomy bytes))

/-- Nothing can be added. -/
def isReadOnly : Image → Bool
  | blank => false
  | stored writable _ => !writable

/-- Adding something finds the damage. -/
def isDamaged : Image → Bool
  | blank => false
  | stored _ roomy => !roomy

end Image

end Ember
