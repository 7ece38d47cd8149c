import StagedCompiler.Target.Type

/-!
The support library that generated C calls. Source programs use its functions
under plain names; in C each has a name of its own. The library is either
declared, or written out in full so that the output compiles on its own.
-/

namespace StagedCompiler.Target

structure Builtin where
  /-- The name in source programs. -/
  name : String
  cName : String
  /-- The C result type as written, `void` for none. -/
  ret : String
  params : List String
deriving DecidableEq

namespace Builtin

def retType (b : Builtin) : CType :=
  if b.ret = "void" then .void else .named b.ret

def prototype (b : Builtin) : String :=
  b.ret ++ " " ++ b.cName ++ "(" ++ ", ".intercalate b.params ++ ");"

def all : List Builtin :=
  [⟨"print", "__pd_print", "void", ["const char*"]⟩,
   ⟨"print_int", "__pd_print_int", "void", ["long long"]⟩,
   ⟨"string_len", "__pd_string_len", "long long", ["const char*"]⟩,
   ⟨"string_concat", "__pd_string_concat", "const char*", ["const char*", "const char*"]⟩,
   ⟨"string_char_at", "__pd_string_char_at", "long long", ["const char*", "long long"]⟩,
   ⟨"string_from_char", "__pd_string_from_char", "const char*", ["long long"]⟩,
   ⟨"int_to_string", "__pd_int_to_string", "const char*", ["long long"]⟩,
   ⟨"file_open", "__pd_file_open", "long long", ["const char*"]⟩,
   ⟨"file_read_all", "__pd_file_read_all", "const char*", ["long long"]⟩,
   ⟨"file_write", "__pd_file_write", "int", ["long long", "const char*"]⟩,
   ⟨"file_close", "__pd_file_close", "int", ["long long"]⟩]

def find? (name : String) : Option Builtin :=
  all.find? (·.name == name)

end Builtin

/-- The C name of a function that a source program calls. -/
def calleeName (name : String) : String :=
  match Builtin.find? name with
  | some b => b.cName
  | none => name

namespace Support

def lines (ls : List String) : String :=
  String.join (ls.map (· ++ "\n"))

def headers : String :=
  lines ["#include <stdio.h>", "#include <stdlib.h>", "#include <string.h>"]

def declarations : String :=
  lines (Builtin.all.map Builtin.prototype)

def printCode : List String :=
  ["void __pd_print(const char* s) \x7b",
   "    printf(\"%s\\n\", s);",
   "\x7d"]

def printIntCode : List String :=
  ["void __pd_print_int(long long v) \x7b",
   "    printf(\"%lld\\n\", v);",
   "\x7d"]

def stringLenCode : List String :=
  ["long long __pd_string_len(const char* s) \x7b",
   "    return (long long)strlen(s);",
   "\x7d"]

def stringConcatCode : List String :=
  ["const char* __pd_string_concat(const char* a, const char* b) \x7b",
   "    size_t la = strlen(a);",
   "    size_t lb = strlen(b);",
   "    char* out = malloc(la + lb + 1);",
   "    if (!out) return \"\";",
   "    memcpy(out, a, la);",
   "    memcpy(out + la, b, lb + 1);",
   "    return out;",
   "\x7d"]

def stringCharAtCode : List String :=
  ["long long __pd_string_char_at(const char* s, long long i) \x7b",
   "    if (i < 0 || i >= (long long)strlen(s)) return -1;",
   "    return (unsigned char)s[i];",
   "\x7d"]

def stringFromCharCode : List String :=
  ["const char* __pd_string_from_char(long long c) \x7b",
   "    char* out = malloc(2);",
   "    if (!out) return \"\";",
   "    out[0] = (char)c;",
   "    out[1] = '\\0';",
   "    return out;",
   "\x7d"]

def intToStringCode : List String :=
  ["const char* __pd_int_to_string(long long n) \x7b",
   "    char* out = malloc(32);",
   "    if (!out) return \"\";",
   "    snprintf(out, 32, \"%lld\", n);",
   "    return out;",
   "\x7d"]

def fileTableCode : List String :=
  ["#define PD_MAX_FILES 256",
   "static FILE* __pd_files[PD_MAX_FILES];",
   "static int __pd_next_file = 1;"]

def fileGetCode : List String :=
  ["static FILE* __pd_file_get(long long h) \x7b",
   "    if (h < 1 || h >= PD_MAX_FILES) return NULL;",
   "    return __pd_files[h];",
   "\x7d"]

def fileOpenCode : List String :=
  ["long long __pd_file_open(const char* path) \x7b",
   "    if (__pd_next_file >= PD_MAX_FILES) return -1;",
   "    FILE* f = fopen(path, \"r+\");",
   "    if (!f) f = fopen(path, \"w+\");",
   "    if (!f) return -1;",
   "    __pd_files[__pd_next_file] = f;",
   "    return __pd_next_file++;",
   "\x7d"]

def fileReadAllCode : List String :=
  ["const char* __pd_file_read_all(long long h) \x7b",
   "    FILE* f = __pd_file_get(h);",
   "    if (!f) return \"\";",
   "    fseek(f, 0, SEEK_END);",
   "    long size = ftell(f);",
   "    fseek(f, 0, SEEK_SET);",
   "    if (size < 0) return \"\";",
   "    char* out = malloc((size_t)size + 1);",
   "    if (!out) return \"\";",
   "    size_t got = fread(out, 1, (size_t)size, f);",
   "    out[got] = '\\0';",
   "    return out;",
   "\x7d"]

def fileWriteCode : List String :=
  ["int __pd_file_write(long long h, const char* s) \x7b",
   "    FILE* f = __pd_file_get(h);",
   "    if (!f) return 0;",
   "    return fputs(s, f) >= 0;",
   "\x7d"]

def fileCloseCode : List String :=
  ["int __pd_file_close(long long h) \x7b",
   "    FILE* f = __pd_file_get(h);",
   "    if (!f) return 0;",
   "    __pd_files[h] = NULL;",
   "    return fclose(f) == 0;",
   "\x7d"]

/-- The whole library. Open files are numbered from 1 to 255, and -1 stands for
a failure. -/
def embedded : String :=
  "\n".intercalate ([
    printCode, printIntCode, stringLenCode, stringConcatCode, stringCharAtCode,
    stringFromCharCode, intToStringCode, fileTableCode, fileGetCode, fileOpenCode,
    fileReadAllCode, fileWriteCode, fileCloseCode].map lines)

end Support

end StagedCompiler.Target
