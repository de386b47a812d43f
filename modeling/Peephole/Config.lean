/-!
# Config — the settings of a generated file

The preamble holds the C helpers that matchers call.  The default one assumes a header `code.h` that
declares `CODE`, and registers matchers with `add_pattern`.
-/

namespace Peephole

/-- Settings that do not come from the pattern file. -/
structure Config where
  /-- The C text ahead of the matchers. -/
  preamble : String
  /-- The macro or function that each matcher is registered with. -/
  registrar : String
  /-- What the name of the registration function starts with. -/
  initPrefix : String
deriving DecidableEq, Repr

namespace Config

/-- The helpers of the default preamble, line by line. -/
def helperLines : List String :=
  ["/* Generated peephole patterns. Do not edit by hand. */",
    "",
    "#include <stdlib.h>",
    "#include \"code.h\"",
    "",
    "typedef int (*OPTI)(CODE **);",
    "",
    "extern int add_pattern(OPTI pattern);",
    "#define ADD_PATTERN(pattern) add_pattern(pattern)",
    "",
    "/* Instruction following c, or NULL at the end of the list. */",
    "static CODE *next(CODE *c)",
    "\x7b",
    "    return c == NULL ? NULL : c->next;",
    "\x7d",
    "",
    "/* Duplicates one instruction node detached from the list, so the replacement links",
    "   its own node rather than the matched one. */",
    "static CODE *copyCODE(CODE *c)",
    "\x7b",
    "    CODE *copy = (CODE *)malloc(sizeof(CODE));",
    "    *copy = *c;",
    "    copy->next = NULL;",
    "    return copy;",
    "\x7d",
    "",
    "/* Replaces the k instructions starting at *c with the list r. A NULL r deletes them. */",
    "static int replace(CODE **c, int k, CODE *r)",
    "\x7b",
    "    CODE *p = *c;",
    "    for (int i = 0; i < k && p != NULL; i++) \x7b",
    "        p = p->next;",
    "    \x7d",
    "    if (r == NULL) \x7b",
    "        *c = p;",
    "    \x7d else \x7b",
    "        CODE *last = r;",
    "        while (last->next != NULL && last->next != p) \x7b",
    "            last = last->next;",
    "        \x7d",
    "        last->next = p;",
    "        *c = r;",
    "    \x7d",
    "    return 1;",
    "\x7d",
    ""]

/-- The settings unless told otherwise. -/
def default : Config where
  preamble := String.join (helperLines.map (· ++ "\n"))
  registrar := "ADD_PATTERN"
  initPrefix := "init_patterns_"

end Config

end Peephole
