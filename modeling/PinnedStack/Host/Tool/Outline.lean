import PinnedStack.Host.Tool.Files

/-!
# Programs in outline

* `Tool.outlines` — programs of which only the options are described.
* `Tool.outlined` — such a program: it refuses wrong options and does nothing else.
-/

namespace PinnedStack.Tool

/-- Programs of which only the options are described: the status that a wrong option gives, and the
letters, with a colon after those that take a value. -/
def outlines : List (String × Nat × String) :=
  [("arch", 1, ""), ("b2sum", 1, "bcl:twz"), ("base32", 1, "diw:"), ("base64", 1, "diw:"),
    ("basenc", 1, "diw:"), ("chcon", 1, "hl:r:t:u:vHLPR"), ("chgrp", 1, "cfhvHLPR"),
    ("chown", 1, "cfhvHLPR"), ("cksum", 1, "a:bcl:twz"), ("comm", 1, "z123"),
    ("csplit", 1, "b:f:kn:qsz"), ("cut", 1, "b:c:d:f:nsz"), ("date", 1, "d:f:r:s:uI::R"),
    ("dd", 1, ""), ("df", 1, "ahiklmt:vx:B:F:HPT"), ("dircolors", 1, "bcp"),
    ("du", 1, "abcd:hklmst:xB:DHLPSX:0"), ("expand", 1, "it:0123456789"), ("factor", 1, "h"),
    ("fmt", 1, "cg:p:stuw:0123456789"), ("fold", 1, "bsw:0123456789"), ("groups", 1, ""),
    ("hostid", 1, ""), ("id", 1, "agGnruzZ"), ("install", 1, "bcCdDg:m:o:pst:TvS:"),
    ("join", 1, "a:e:ij:o:t:v:z1:2:"), ("link", 1, ""), ("logname", 1, ""), ("md5sum", 1, "bctwz"),
    ("mkfifo", 1, "m:Z"), ("mknod", 1, "m:Z"), ("mktemp", 1, "dp:qtu"), ("nice", 125, "n:"),
    ("nl", 1, "b:d:f:h:i:l:n:ps:v:w:"), ("nohup", 125, ""), ("nproc", 1, ""), ("numfmt", 1, "d:z"),
    ("od", 1, "A:abcdDeFfhHiIlLj:N:oOS:st:vw::xX"), ("paste", 1, "d:sz"), ("pathchk", 1, "pP"),
    ("pinky", 1, "bfhilpqsw"), ("pr", 1, "abcde::fh:i::l:mn::o:rs::tvw:D:FJN:S::TW:0123456789"),
    ("printenv", 2, "0"), ("ptx", 1, "b:fg:i:o:rtw:AF:GM:ORS:TW:"), ("readlink", 1, "femnqsvz"),
    ("realpath", 1, "eLmPqsz"), ("sha1sum", 1, "bctwz"), ("sha224sum", 1, "bctwz"),
    ("sha256sum", 1, "bctwz"), ("sha384sum", 1, "bctwz"), ("sha512sum", 1, "bctwz"),
    ("shred", 1, "fn:s:uvxz"), ("shuf", 1, "ei:n:o:rz"), ("sort", 2, "bcCdfghik:mMno:rRsS:t:T:uVz"),
    ("split", 1, "a:b:del:n:t:uxC:0123456789"), ("stat", 1, "c:fLt"), ("sum", 1, "rs"),
    ("sync", 1, "df"), ("tac", 1, "brs:"), ("timeout", 125, "k:s:v"), ("truncate", 1, "cor:s:"),
    ("tsort", 1, ""), ("tty", 2, "s"), ("uname", 1, "asnrvmpio"), ("unexpand", 1, "at:0123456789"),
    ("uniq", 1, "cdDf:is:uw:z"), ("unlink", 1, ""), ("users", 1, ""), ("who", 1, "abdlmpqrstuwHT"),
    ("whoami", 1, "")]

/-- A program of which only the options are described. -/
def outlined (status : Nat) (letters : String) (j : Job) : Job :=
  j.withOptions (.of letters []) status fun _ => j

end PinnedStack.Tool
