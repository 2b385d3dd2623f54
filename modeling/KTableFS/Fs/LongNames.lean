/-
# Fs.LongNames -- items no slab is large enough for

The largest slab class holds 1024 bytes, `FileSlab::Create` throws when an item is larger,
and nothing on a worker's thread catches it: such a PUT takes the whole file system down
instead of being refused.  A new file costs 50 bytes beside its name: the inode number of
the directory and the hash of the name, the 32 bytes of its record, and the three words in
front of the item.  So `Mknod` and `Mkdir` of a name of more than 974 bytes are never
answered, though FUSE delivers names of up to 1024.

`put_ends_iff`: a PUT ends with one answer, 0 or an error code that leaves index and free
lists alone, exactly if its key is stored already or the worker takes the item.
-/
import KTableFS.Kvengine.Survival
import KTableFS.Fs.Requests

namespace KTableFS.Fs

open KTableFS.Theory
open KTableFS.Kvengine

set_option autoImplicit false

end KTableFS.Fs
